import Mismatch.Annotation.Print
import Mismatch.Command.Output
import Mismatch.Command.Settings
import Mismatch.ErrorCode.Explanation
import Mismatch.Text.Similar

/-!
# Explaining error codes

Prints the explanation of a code, or suggests codes that may be meant; lists all codes.
-/

namespace Mismatch.Command

/-- The lines that suggest what may be meant, if anything. -/
def suggestionLines (near : List Text) : List Text :=
  if near.isEmpty then []
  else
    let lines := near.map fun c => Text.join ["  tyfix explain ", c]
    Text.ofString "Did you mean:" :: lines ++ [[]]

/-- A text that stands for no code: the codes that are nearest to it, and all there are. -/
def unknownCode (text : Text) : Text :=
  let codes := ErrorCode.all.map (·.name)
  let typed := ErrorCode.normalize text
  let known := Text.join [" ", codes.flatMap fun c => Text.join [" ", c]]
  Text.lines [Text.join ["No explanation available for error code `", typed, "`."], []] ++
    Text.lines (suggestionLines (Text.similar typed codes 3 2)) ++
    Text.lines ["Available error codes:", known]

/-- Explains the code that a text stands for. -/
def explain (env : Environment) (s : Settings) (text : Text) : Exit :=
  match ErrorCode.ofText? text with
  | none => ⟨1, .err (unknownCode text)⟩
  | some c =>
    let paint (style : Text) : Text := if s.colors && env.hasColors then style else []
    ⟨0, .out (Text.join [paint Color.bold, paint Color.brightCyan, "Explanation for ", c.name,
      paint Color.reset, "\n", c.explanation, "\nSee also: ", c.url, "\n"])⟩

/-- Lists all codes with the places where they are documented. -/
def listCodes : Exit :=
  ⟨0, .out (Text.lines (ErrorCode.all.map fun c => Text.join [c.name, "  ", c.url]))⟩

end Mismatch.Command
