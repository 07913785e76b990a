import Mismatch.Text.EditDistance

/-!
# Similar names

Which of the known names a mistyped one may stand for.
-/

namespace Mismatch.Text

/-- The difference of the lengths of two texts; their edit distance is never below it. -/
def lengthGap (s t : Text) : Nat := (s.length - t.length) + (t.length - s.length)

/-- The candidates within `maxDistance` of `input`, each with its distance. Those whose length
alone rules them out are not compared. -/
def withinDistance (input : Text) (candidates : List Text) (maxDistance : Nat) :
    List (Nat × Text) :=
  candidates.filterMap fun c =>
    if lengthGap input c ≤ maxDistance then
      let d := distance input c
      if d ≤ maxDistance then some (d, c) else none
    else none

/-- The order of suggestions: the nearer first, names at one distance by their bytes. -/
def nearerOrBefore (x y : Nat × Text) : Bool :=
  if x.1 = y.1 then decide (x.2 ≤ y.2) else decide (x.1 < y.1)

/-- At most `maxResults` of the candidates within `maxDistance` of `input`, nearest first. Nothing
is similar to the empty text. -/
def similar (input : Text) (candidates : List Text) (maxResults maxDistance : Nat) : List Text :=
  if input.isEmpty then []
  else (((withinDistance input candidates maxDistance).mergeSort nearerOrBefore).take
    maxResults).map (·.2)

end Mismatch.Text
