import Mismatch.Ty.Basic

/-!
# Declared names

The items that a written type may mention. An item is found under its short name and under its full
path; a name that fits several items is refused, and the refusal lists their full paths.
-/

namespace Mismatch

/-- A declared item and the number of its type arguments. -/
structure Declared where
  item : Item
  arity : Nat

/-- The declared items, in the order of their declaration. -/
structure NameTable where
  entries : List Declared

/-- Why a name denotes no item. -/
inductive NameError where
  | unknown (name : Text)
  | ambiguous (name : Text) (candidates : List Item)

def NameError.message : NameError → Text
  | .unknown name => Text.join ["unknown type `", name, "`"]
  | .ambiguous name candidates =>
    Text.join ["ambiguous type `", name, "`, candidates are:",
      candidates.flatMap fun i => Text.join [" `", i.qualified, "`"]]

/-- Whether the name stands for the item: its short name or its full path. -/
def Item.answersTo (i : Item) (name : Text) : Bool := i.name == name || i.qualified == name

namespace NameTable

def empty : NameTable := ⟨[]⟩

def size (t : NameTable) : Nat := t.entries.length

def add (t : NameTable) (item : Item) (arity : Nat) : NameTable := ⟨t.entries ++ [⟨item, arity⟩]⟩

/-- The one entry that the name stands for. -/
def lookup (t : NameTable) (name : Text) : Except NameError Declared :=
  match t.entries.filter (·.item.answersTo name) with
  | [] => .error (.unknown name)
  | [e] => .ok e
  | es => .error (.ambiguous name (es.map (·.item)))

end NameTable
end Mismatch
