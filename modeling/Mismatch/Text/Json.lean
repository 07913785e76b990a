import Mismatch.Text.Basic

/-!
# Text inside JSON strings

`escape` writes a text as the inside of a JSON string. The quotation mark, the reverse solidus and
every control character are escaped, so what it writes lies on one line.
-/

namespace Mismatch.Text.Json

/-- The characters that have an escape of two characters. -/
def shortEscapes : List (UInt8 × Text) :=
  [(byte '"', "\\\""), (byte '\\', "\\\\"), (8, "\\b"), (12, "\\f"), (10, "\\n"), (13, "\\r"),
    (9, "\\t")]

/-- A hexadecimal digit, in lower case. -/
def hexDigit (n : UInt8) : UInt8 := if n < 10 then byte '0' + n else byte 'a' + (n - 10)

def escapeByte (b : UInt8) : Text :=
  match shortEscapes.lookup b with
  | some e => e
  | none => if b < 0x20 then "\\u00" ++ [hexDigit (b / 16), hexDigit (b % 16)] else [b]

def escape (t : Text) : Text := t.flatMap escapeByte

/-- A text between quotation marks, taken as it is. -/
def quote (t : Text) : Text := byte '"' :: (t ++ [byte '"'])

/-- A member of an object: its name and its written value. -/
def member (name value : Text) : Text := quote name ++ byte ':' :: value

/-- A member whose value is a string. -/
def stringMember (name value : Text) : Text := member name (quote (escape value))

/-- An object of written members. -/
def object (members : List Text) : Text := "\x7b" ++ joinWith "," members ++ "\x7d"

/-- An array of written values. -/
def array (values : List Text) : Text := "[" ++ joinWith "," values ++ "]"

end Mismatch.Text.Json
