import Mismatch.Ty.Basic

/-!
# Expressions

What is known of the expression whose type does not fit: its text and the few facts about its
surroundings on which fixes depend.
-/

namespace Mismatch

/-- The function whose value an expression is. The declared type is missing where the function
declares none. -/
structure ReturnSite where
  function : Text
  declared : Ty

/-- An element of a program with the wrong type. Patterns, for instance, are no expressions; a
mutable place is one that may be borrowed mutably; `letBinding` is the name that the expression
initializes. -/
structure Expr where
  text : Text
  isExpression : Bool
  mutablePlace : Bool
  letBinding : Option Text
  returnSite : Option ReturnSite

/-- An expression of which nothing but the text is known. -/
def Expr.ofText (text : Text) : Expr := ⟨text, true, false, none, none⟩

end Mismatch
