import Mismatch.Ty.Basic

/-!
# The text of a type

Types are shown in the syntax in which they are written. A declared item is shown by its short name
unless it is listed as one to be shown by its full path. The text is built from its end, in front of
what follows it, so that a type is written out in one pass however deep it is nested.
-/

namespace Mismatch

/-- The item as it is shown when those in `qualify` are written in full. -/
def Item.shown (qualify : List Item) (i : Item) : Text :=
  if qualify.contains i then i.qualified else i.name

namespace Ty

mutual

/-- The text of a type, in which the items of `qualify` are written in full, with `rest` after it.
-/
def renderOnto (qualify : List Item) : (t : Ty) → (rest : Text) → Text
  | .missing, rest => "<null>" ++ rest
  | .num k, rest => k.name ++ rest
  | .prim k, rest => k.name ++ rest
  | .ref .immutable t, rest => "&" ++ renderOnto qualify t rest
  | .ref .mutable t, rest => "&mut " ++ renderOnto qualify t rest
  | .adt i [], rest => i.shown qualify ++ rest
  | .adt i (t :: ts), rest =>
    i.shown qualify ++ ("<" ++ renderListOnto qualify (t :: ts) (">" ++ rest))
  | .tuple [t], rest => "(" ++ renderOnto qualify t (",)" ++ rest)
  | .tuple ts, rest => "(" ++ renderListOnto qualify ts (")" ++ rest)
  | .slice t, rest => "[" ++ renderOnto qualify t ("]" ++ rest)
  | .param a, rest => a ++ rest
  | .infer _ _ snapshot, rest => snapshot ++ rest
  | .unknown, rest => "\x7bunknown\x7d" ++ rest
  | .anon description, rest => description ++ rest

/-- The texts of several types with commas between them and `rest` after them. -/
def renderListOnto (qualify : List Item) : (ts : List Ty) → (rest : Text) → Text
  | [], rest => rest
  | [t], rest => renderOnto qualify t rest
  | t :: u :: ts, rest => renderOnto qualify t (", " ++ renderListOnto qualify (u :: ts) rest)

end

/-- The text of a type in which the items of `qualify` are written in full. -/
def render (qualify : List Item) (t : Ty) : Text := renderOnto qualify t []

/-- The texts of several types with commas between them. -/
def renderList (qualify : List Item) (ts : List Ty) : Text := renderListOnto qualify ts []

mutual

theorem renderOnto_eq (q : List Item) : ∀ (t : Ty) (rest : Text),
    renderOnto q t rest = render q t ++ rest
  | .missing, _ | .num _, _ | .prim _, _ | .param _, _ | .infer .., _ | .unknown, _
  | .anon _, _ => by simp [render, renderOnto]
  | .ref .immutable t, rest | .ref .mutable t, rest => by
    simp [render, renderOnto, renderOnto_eq q t rest]
  | .adt _ [], _ => by simp [render, renderOnto]
  | .adt _ (t :: ts), rest => by
    simp [render, renderOnto, renderListOnto_eq q (t :: ts) (_ ++ rest),
      renderListOnto_eq q (t :: ts) (Text.ofString ">")]
  | .tuple [t], rest => by
    simp [render, renderOnto, renderOnto_eq q t (_ ++ rest),
      renderOnto_eq q t (Text.ofString ",)")]
  | .tuple [], rest => by
    simp [render, renderOnto, renderListOnto]
  | .tuple (t :: u :: ts), rest => by
    simp [render, renderOnto, renderListOnto_eq q (t :: u :: ts) (_ ++ rest),
      renderListOnto_eq q (t :: u :: ts) (Text.ofString ")")]
  | .slice t, rest => by
    simp [render, renderOnto, renderOnto_eq q t (_ ++ rest), renderOnto_eq q t (Text.ofString "]")]

theorem renderListOnto_eq (q : List Item) : ∀ (ts : List Ty) (rest : Text),
    renderListOnto q ts rest = renderList q ts ++ rest
  | [], _ => by simp [renderList, renderListOnto]
  | [t], rest => by simp [renderList, renderListOnto, renderOnto_eq q t rest, render]
  | t :: u :: ts, rest => by
    simp [renderList, renderListOnto, renderListOnto_eq q (u :: ts) rest,
      renderOnto_eq q t (_ ++ _), renderList]

end

/-- The text of a type with short names only. -/
def text (t : Ty) : Text := t.render []

end Ty
end Mismatch
