import Mismatch.Prelude.Items
import Mismatch.Trait.Table

/-!
# Standard implementations

The conversion traits of the standard library and the implementations that the engine asks for,
family by family. Nothing else of the standard library is described.
-/

namespace Mismatch.Prelude

def integers : List NumKind := NumKind.all.filter (·.isInteger)

def floats : List NumKind := NumKind.all.filter (·.isFloat)

/-- The pairs of numeric types of which the second holds every value of the first. -/
def lossless : List (NumKind × NumKind) :=
  [(.u8, .u16), (.u8, .u32), (.u8, .u64), (.u8, .u128), (.u8, .usize),
    (.u8, .i16), (.u8, .i32), (.u8, .i64), (.u8, .i128), (.u8, .isize),
    (.u16, .u32), (.u16, .u64), (.u16, .u128), (.u16, .usize),
    (.u16, .i32), (.u16, .i64), (.u16, .i128),
    (.u32, .u64), (.u32, .u128), (.u32, .i64), (.u32, .i128),
    (.u64, .u128), (.u64, .i128),
    (.i8, .i16), (.i8, .i32), (.i8, .i64), (.i8, .i128), (.i8, .isize),
    (.i16, .i32), (.i16, .i64), (.i16, .i128), (.i16, .isize),
    (.i32, .i64), (.i32, .i128), (.i64, .i128),
    (.u8, .f32), (.u8, .f64), (.u16, .f32), (.u16, .f64), (.u32, .f64),
    (.i8, .f32), (.i8, .f64), (.i16, .f32), (.i16, .f64), (.i32, .f64), (.f32, .f64)]

def paramT : Ty := .param "T"

def paramU : Ty := .param "U"

def vecOf (t : Ty) : Ty := .adt vecType [t]

def boxOf (t : Ty) : Ty := .adt boxType [t]

/-- An implementation without generics, obligations and associated types. -/
def plain (self : Ty) (trait : Item) (args : List Ty) : Impl := ⟨[], ⟨self, trait, args⟩, [], []⟩

/-- An implementation without generics and obligations, with one associated type. -/
def withAssoc (self : Ty) (trait : Item) (args : List Ty) (name : Text) (t : Ty) : Impl :=
  ⟨[], ⟨self, trait, args⟩, [(name, t)], []⟩

/-- An implementation for every `T`. -/
def generic (self : Ty) (trait : Item) (args : List Ty) : Impl :=
  ⟨["T"], ⟨self, trait, args⟩, [], []⟩

/-- An implementation of a trait without arguments for every `T` that has the trait `bound`. -/
def bounded (self : Ty) (trait : Item) (assoc : List (Text × Ty)) (bound : Item) : Impl :=
  ⟨["T"], ⟨self, trait, []⟩, assoc, [⟨paramT, bound, []⟩]⟩

/-- The implementation of `trait` for every `U` on a reference to a type that has it. -/
def through (self : Ty) (trait : Item) : Impl :=
  ⟨["T", "U"], ⟨self, trait, [paramU]⟩, [], [⟨paramT, trait, [paramU]⟩]⟩

def traits : List TraitDef :=
  [⟨fromTrait, ["T"], []⟩, ⟨tryFromTrait, ["T"], ["Error"]⟩, ⟨fromStrTrait, [], ["Err"]⟩,
    ⟨toOwnedTrait, [], ["Owned"]⟩, ⟨toStringTrait, [], []⟩, ⟨borrowTrait, ["Borrowed"], []⟩,
    ⟨borrowMutTrait, ["Borrowed"], []⟩, ⟨asRefTrait, ["T"], []⟩, ⟨asMutTrait, ["T"], []⟩,
    ⟨derefTrait, [], ["Target"]⟩, ⟨displayTrait, [], []⟩, ⟨cloneTrait, [], []⟩]

def numeric : List Ty := (integers ++ floats).map .num

def displayable : List Ty := [.bool, .char, .str, stringTy] ++ numeric

def cloneable : List Ty := [.bool, .char, stringTy] ++ numeric

def displayImpls : List Impl := displayable.map (plain · displayTrait [])

def cloneImpls : List Impl := cloneable.map (plain · cloneTrait [])

def boundedImpls : List Impl :=
  [bounded (.shared paramT) displayTrait [] displayTrait,
    bounded (.ref .mutable paramT) displayTrait [] displayTrait,
    bounded (vecOf paramT) cloneTrait [] cloneTrait]

def fromImpls : List Impl :=
  [generic paramT fromTrait [paramT]] ++
  lossless.map (fun (source, target) => plain (.num target) fromTrait [.num source]) ++
  [plain stringTy fromTrait [.shared .str], plain stringTy fromTrait [.ref .mutable .str],
    plain stringTy fromTrait [.shared stringTy], plain stringTy fromTrait [.char],
    generic (boxOf paramT) fromTrait [paramT],
    generic (boxOf (.slice paramT)) fromTrait [vecOf paramT]]

/-- The integer conversions that may fail: between different types, where not lossless. -/
def tryFromImpls : List Impl :=
  integers.flatMap fun source =>
    (integers.filter fun target => target != source && !lossless.contains (source, target)).map
      fun target =>
        withAssoc (.num target) tryFromTrait [.num source] "Error" (.adt tryFromIntError [])

def fromStrImpls : List Impl :=
  integers.map (fun k => withAssoc (.num k) fromStrTrait [] "Err" (.adt parseIntError [])) ++
  floats.map (fun k => withAssoc (.num k) fromStrTrait [] "Err" (.adt parseFloatError [])) ++
  [withAssoc .bool fromStrTrait [] "Err" (.adt parseBoolError []),
    withAssoc .char fromStrTrait [] "Err" (.adt parseCharError []),
    withAssoc stringTy fromStrTrait [] "Err" (.adt infallible [])]

def toOwnedImpls : List Impl :=
  [withAssoc .str toOwnedTrait [] "Owned" stringTy,
    bounded (.slice paramT) toOwnedTrait [("Owned", vecOf paramT)] cloneTrait,
    bounded paramT toOwnedTrait [("Owned", paramT)] cloneTrait]

def toStringImpls : List Impl := [bounded paramT toStringTrait [] displayTrait]

def derefImpls : List Impl :=
  [withAssoc stringTy derefTrait [] "Target" .str,
    ⟨["T"], ⟨vecOf paramT, derefTrait, []⟩, [("Target", .slice paramT)], []⟩,
    ⟨["T"], ⟨boxOf paramT, derefTrait, []⟩, [("Target", paramT)], []⟩]

def borrowImpls : List Impl :=
  [generic paramT borrowTrait [paramT], generic (.shared paramT) borrowTrait [paramT],
    generic (.ref .mutable paramT) borrowTrait [paramT], plain stringTy borrowTrait [.str],
    generic (vecOf paramT) borrowTrait [.slice paramT],
    generic paramT borrowMutTrait [paramT], generic (.ref .mutable paramT) borrowMutTrait [paramT],
    plain stringTy borrowMutTrait [.str], generic (vecOf paramT) borrowMutTrait [.slice paramT]]

def asRefImpls : List Impl :=
  [plain .str asRefTrait [.str], plain .str asRefTrait [.slice (.num .u8)],
    plain stringTy asRefTrait [.str], plain stringTy asRefTrait [.slice (.num .u8)],
    generic (vecOf paramT) asRefTrait [.slice paramT],
    generic (.slice paramT) asRefTrait [.slice paramT],
    generic (boxOf paramT) asRefTrait [paramT],
    through (.shared paramT) asRefTrait, through (.ref .mutable paramT) asRefTrait]

def asMutImpls : List Impl :=
  [plain .str asMutTrait [.str], plain stringTy asMutTrait [.str],
    generic (vecOf paramT) asMutTrait [.slice paramT],
    generic (.slice paramT) asMutTrait [.slice paramT],
    generic (boxOf paramT) asMutTrait [paramT], through (.ref .mutable paramT) asMutTrait]

/-- All standard implementations. -/
def impls : List Impl :=
  displayImpls ++ cloneImpls ++ boundedImpls ++ fromImpls ++ tryFromImpls ++ fromStrImpls ++
    toOwnedImpls ++ toStringImpls ++ derefImpls ++ borrowImpls ++ asRefImpls ++ asMutImpls

/-- The table with the standard traits and implementations added. -/
def extend (T : TraitTable) : TraitTable :=
  let T := traits.foldl TraitTable.addTrait T
  { T with impls := T.impls ++ impls }

end Mismatch.Prelude
