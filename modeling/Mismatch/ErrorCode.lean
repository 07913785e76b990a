import Mismatch.Text.Basic

/-!
# Error codes

The published codes of the errors that are diagnosed.
-/

namespace Mismatch

inductive ErrorCode where
  | e0004 | e0054 | e0057 | e0060 | e0061 | e0069 | e0133
  | e0308 | e0451 | e0594 | e0603 | e0614 | e0616 | e0624
deriving DecidableEq

namespace ErrorCode

def all : List ErrorCode :=
  [.e0004, .e0054, .e0057, .e0060, .e0061, .e0069, .e0133, .e0308, .e0451, .e0594, .e0603, .e0614,
    .e0616, .e0624]

def name : ErrorCode → Text
  | .e0004 => "E0004"
  | .e0054 => "E0054"
  | .e0057 => "E0057"
  | .e0060 => "E0060"
  | .e0061 => "E0061"
  | .e0069 => "E0069"
  | .e0133 => "E0133"
  | .e0308 => "E0308"
  | .e0451 => "E0451"
  | .e0594 => "E0594"
  | .e0603 => "E0603"
  | .e0614 => "E0614"
  | .e0616 => "E0616"
  | .e0624 => "E0624"

/-- Where the code is documented. -/
def url (c : ErrorCode) : Text := "https://doc.rust-lang.org/error-index.html#" ++ c.name

/-- A code as somebody may have typed it, without white space and in upper case. -/
def normalize (t : Text) : Text := Text.toUpper (t.filter fun b => !Text.isSpace b)

/-- The code that a text stands for, case and white space aside. -/
def ofText? (t : Text) : Option ErrorCode := all.find? (·.name == normalize t)

end ErrorCode
end Mismatch
