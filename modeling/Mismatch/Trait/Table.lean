import Mismatch.Trait.Basic

/-!
# Tables of traits and implementations

What is declared: traits, implementations in the order of their declaration, and the items known by
their role. A trait that is declared again replaces its former declaration in place.
-/

namespace Mismatch

structure TraitTable where
  traits : List TraitDef
  impls : List Impl
  known : KnownItems

namespace TraitTable

def empty (known : KnownItems) : TraitTable := ⟨[], [], known⟩

def trait? (T : TraitTable) (id : Item) : Option TraitDef := T.traits.find? (·.id == id)

/-- The declarations with `d` in place of the one of the same trait, or at their end. -/
def declare (d : TraitDef) : List TraitDef → List TraitDef
  | [] => [d]
  | e :: es => if e.id == d.id then d :: es else e :: declare d es

def addTrait (T : TraitTable) (d : TraitDef) : TraitTable := { T with traits := declare d T.traits }

def addImpl (T : TraitTable) (i : Impl) : TraitTable := { T with impls := T.impls ++ [i] }

def setKnown (T : TraitTable) (known : KnownItems) : TraitTable := { T with known := known }

end TraitTable
end Mismatch
