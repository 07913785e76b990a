/-!
# Text

A text is a string of bytes. Lengths, offsets and edit distances count bytes, and a text need not
be well-formed UTF-8: a reader may stop in the middle of a character. The character classes are
those of ASCII; no byte from 0x80 up belongs to any of them.
-/

namespace Mismatch

/-- A text is a list of bytes. -/
abbrev Text := List UInt8

namespace Text

/-- The bytes of a string in UTF-8. -/
def ofString (s : String) : Text := s.toList.flatMap String.utf8EncodeChar

instance : Coe String Text := ⟨ofString⟩

/-- The byte of an ASCII character. -/
def byte (c : Char) : UInt8 := c.val.toUInt8

def join (ts : List Text) : Text := ts.flatten

/-- The texts one after the other with `sep` between neighbours. -/
def joinWith (sep : Text) : List Text → Text
  | [] => []
  | [t] => t
  | t :: u :: ts => t ++ sep ++ joinWith sep (u :: ts)

/-- The texts as lines, each ended by a line feed. -/
def lines (ts : List Text) : Text := ts.flatMap fun t => t ++ [10]

/-- A natural number in decimal. -/
def ofNat (n : Nat) : Text := (Nat.toDigits 10 n).map byte

/-- An integer in decimal, with a minus sign where it is negative. -/
def ofInt : Int → Text
  | .ofNat n => ofNat n
  | .negSucc n => byte '-' :: ofNat (n + 1)

/-! ## Classes of bytes -/

/-- A blank, a tab, a line feed, a vertical tab, a form feed or a carriage return. -/
def isSpace (b : UInt8) : Bool := b == 32 || (9 ≤ b && b ≤ 13)

def isLower (b : UInt8) : Bool := byte 'a' ≤ b && b ≤ byte 'z'

def isUpper (b : UInt8) : Bool := byte 'A' ≤ b && b ≤ byte 'Z'

def isDigit (b : UInt8) : Bool := byte '0' ≤ b && b ≤ byte '9'

/-- An identifier starts with a letter or an underscore. -/
def isIdentStart (b : UInt8) : Bool := isLower b || isUpper b || b == byte '_'

/-- An identifier goes on with letters, digits and underscores. -/
def isIdentByte (b : UInt8) : Bool := isIdentStart b || isDigit b

def lowerByte (b : UInt8) : UInt8 := if isUpper b then b + 32 else b

def upperByte (b : UInt8) : UInt8 := if isLower b then b - 32 else b

/-- The text with its ASCII letters in lower case. -/
def toLower (t : Text) : Text := t.map lowerByte

/-- The text with its ASCII letters in upper case. -/
def toUpper (t : Text) : Text := t.map upperByte

/-! ## Cutting and padding -/

/-- What follows `start` at the front of the text, if the text starts with it. -/
def dropStart? : (start t : Text) → Option Text
  | [], t => some t
  | _ :: _, [] => none
  | a :: as, b :: bs => if a == b then dropStart? as bs else none

/-- The pieces between the occurrences of a byte: one more than there are occurrences. -/
def splitOn (sep : UInt8) : Text → List Text
  | [] => [[]]
  | b :: t =>
    if b == sep then [] :: splitOn sep t
    else match splitOn sep t with
      | [] => [[b]]
      | p :: ps => (b :: p) :: ps

/-- The text filled up with `fill` on its left to `width` bytes. -/
def padLeft (width : Nat) (fill : UInt8) (t : Text) : Text :=
  List.replicate (width - t.length) fill ++ t

/-- The text filled up with blanks on its right to `width` bytes. -/
def padRight (width : Nat) (t : Text) : Text :=
  t ++ List.replicate (width - t.length) 32

end Text
end Mismatch
