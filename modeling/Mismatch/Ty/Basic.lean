import Mismatch.Text.Basic

/-!
# Types

The types that a mismatch is about, as finite trees. `Ty.equiv` is the one equivalence that every
decision rests on: it compares shapes and leaves, with no subtyping and no unification. The display
text of an inference variable takes no part in it.
-/

namespace Mismatch

/-- The numeric types. -/
inductive NumKind where
  | i8 | i16 | i32 | i64 | i128 | isize
  | u8 | u16 | u32 | u64 | u128 | usize
  | f32 | f64
deriving DecidableEq

namespace NumKind

def all : List NumKind :=
  [.i8, .i16, .i32, .i64, .i128, .isize, .u8, .u16, .u32, .u64, .u128, .usize, .f32, .f64]

def name : NumKind → Text
  | .i8 => "i8"
  | .i16 => "i16"
  | .i32 => "i32"
  | .i64 => "i64"
  | .i128 => "i128"
  | .isize => "isize"
  | .u8 => "u8"
  | .u16 => "u16"
  | .u32 => "u32"
  | .u64 => "u64"
  | .u128 => "u128"
  | .usize => "usize"
  | .f32 => "f32"
  | .f64 => "f64"

def isFloat (k : NumKind) : Bool := k == .f32 || k == .f64

def isInteger (k : NumKind) : Bool := !k.isFloat

end NumKind

/-- The other types that need no declaration. `str` is the unsized string slice. -/
inductive PrimKind where
  | bool | char | str | unit | never
deriving DecidableEq

def PrimKind.name : PrimKind → Text
  | .bool => "bool"
  | .char => "char"
  | .str => "str"
  | .unit => "()"
  | .never => "!"

/-- Whether what a reference points to may be changed through it. -/
inductive Mutability where
  | immutable | mutable
deriving DecidableEq

/-- What may stand for an inference variable: an integer type, a float type or any type. -/
inductive InferKind where
  | int | float | general
deriving DecidableEq

/-- How an inference variable of a kind is shown before anything is known about it. -/
def InferKind.defaultSnapshot : InferKind → Text
  | .int => "\x7binteger\x7d"
  | .float => "\x7bfloat\x7d"
  | .general => "_"

/-- A declared type or trait: its short name and the path of the module that declares it. Two items
are the same where both agree. -/
structure Item where
  name : Text
  path : Text
deriving DecidableEq

/-- The full path of the item. An item with an empty path is known by its short name alone. -/
def Item.qualified (i : Item) : Text :=
  if i.path.isEmpty then i.name else i.path ++ "::" ++ i.name

/-- A type. `missing` stands where a type is absent: it equals only itself and no pattern matches
it. The tuple of no elements is not the unit type, though both are shown alike. -/
inductive Ty where
  | missing
  | num (kind : NumKind)
  | prim (kind : PrimKind)
  | ref (mutability : Mutability) (inner : Ty)
  | adt (item : Item) (args : List Ty)
  | tuple (elems : List Ty)
  | slice (elem : Ty)
  | param (name : Text)
  | infer (kind : InferKind) (id : UInt32) (snapshot : Text)
  | unknown
  | anon (description : Text)

namespace Ty

instance : Inhabited Ty := ⟨.missing⟩

abbrev bool : Ty := .prim .bool
abbrev char : Ty := .prim .char
abbrev str : Ty := .prim .str
abbrev unit : Ty := .prim .unit
abbrev never : Ty := .prim .never

/-- A shared reference. -/
abbrev shared (t : Ty) : Ty := .ref .immutable t

/-- A fresh inference variable, shown as its kind says. -/
def fresh (kind : InferKind) (id : UInt32) : Ty := .infer kind id kind.defaultSnapshot

/-! ## Equivalence -/

mutual

/-- Same shape and same leaves; two inference variables agree when kind and number do. -/
def equiv : Ty → Ty → Bool
  | .missing, .missing => true
  | .num k, .num l => k == l
  | .prim k, .prim l => k == l
  | .ref m s, .ref n t => m == n && equiv s t
  | .adt i ss, .adt j ts => i == j && equivAll ss ts
  | .tuple ss, .tuple ts => equivAll ss ts
  | .slice s, .slice t => equiv s t
  | .param a, .param b => a == b
  | .infer k i _, .infer l j _ => k == l && i == j
  | .unknown, .unknown => true
  | .anon d, .anon e => d == e
  | _, _ => false

/-- Two lists of one length whose members are equivalent place by place. -/
def equivAll : List Ty → List Ty → Bool
  | [], [] => true
  | s :: ss, t :: ts => equiv s t && equivAll ss ts
  | _, _ => false

end

/-! ## Walking a type -/

mutual

/-- All types that occur in a type, the outer before the inner and from left to right. What is
missing is left out. -/
def nodes : Ty → List Ty
  | .missing => []
  | .ref m t => .ref m t :: nodes t
  | .adt i ts => .adt i ts :: nodesAll ts
  | .tuple ts => .tuple ts :: nodesAll ts
  | .slice t => .slice t :: nodes t
  | t => [t]

def nodesAll : List Ty → List Ty
  | [] => []
  | t :: ts => nodes t ++ nodesAll ts

end

def isMissing : Ty → Bool
  | .missing => true
  | _ => false

def isInfer : Ty → Bool
  | .infer .. => true
  | _ => false

def isUnknownOrAnon : Ty → Bool
  | .unknown | .anon _ => true
  | _ => false

def isNumeric : Ty → Bool
  | .num _ => true
  | _ => false

/-- A numeric type, or a variable that only a numeric type can stand for. -/
def isNumericLike : Ty → Bool
  | .num _ | .infer .int .. | .infer .float .. => true
  | _ => false

def isStr : Ty → Bool
  | .prim .str => true
  | _ => false

def containsInfer (t : Ty) : Bool := t.nodes.any isInfer

/-- Whether the type has a part about which nothing definite can be written. -/
def containsUnknownOrAnon (t : Ty) : Bool := t.nodes.any isUnknownOrAnon

def item? : Ty → Option Item
  | .adt i _ => some i
  | _ => none

/-- The declared items that occur in a type, in the order of the walk and with repetitions. -/
def items (t : Ty) : List Item := t.nodes.filterMap item?

end Ty
end Mismatch
