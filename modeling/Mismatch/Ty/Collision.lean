import Mismatch.Ty.Render

/-!
# Names that collide

Types in messages are shown with short names, except where two different items with one short name
would look alike: those are written in full, wherever they occur in the message.
-/

namespace Mismatch.Ty

/-- The different items in the types that share their short name with another one. -/
def colliding (ts : List Ty) : List Item :=
  let items := (ts.flatMap Ty.items).eraseDups
  items.filter fun i => items.any fun j => j.name == i.name && j != i

/-- The text of a single type in a message. -/
def clearText (t : Ty) : Text := t.render (colliding [t])

/-- What is said of a mismatch. Names that collide anywhere in the two types are in full in both. -/
def expectedFound (expected actual : Ty) : Text :=
  let full := colliding [expected, actual]
  Text.join ["expected `", expected.render full, "`, found `", actual.render full, "`"]

end Mismatch.Ty
