import Mismatch.Text.Basic

/-!
# Edit distance

How many insertions, deletions and substitutions of single bytes lead from one text to another,
letters of either case being the same letter. The table of distances between the initial parts of
the two texts is built row by row; a row is kept as the list of its cells.
-/

namespace Mismatch.Text

/-- The cells of a row to the right of a cell `left`, where `above` holds the row before from the
cell over `left` on. -/
def distanceCells (a : UInt8) : (left : Nat) → Text → (above : List Nat) → List Nat
  | left, b :: bs, diagonal :: up :: above =>
    let cell := min (min (up + 1) (left + 1)) (diagonal + if a == b then 0 else 1)
    cell :: distanceCells a cell bs (up :: above)
  | _, _, _ => []

/-- The row under `above`, after one more byte `a` of the first text. -/
def distanceRow (t : Text) (above : List Nat) (a : UInt8) : List Nat :=
  let left := above.headD 0 + 1
  left :: distanceCells a left t above

/-- The edit distance of two texts up to the case of ASCII letters. -/
def distance (s t : Text) : Nat :=
  (s.toLower.foldl (distanceRow t.toLower) (List.range (t.length + 1))).getLastD 0

end Mismatch.Text
