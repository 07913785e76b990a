import Mismatch.Ty.Subst

/-!
# Traits, implementations and goals

A goal asks whether a type implements a trait for some arguments. An implementation answers the
goals that its header matches, provided that its obligations hold; header, obligations and
associated types may mention the generics of the implementation as parameters.
-/

namespace Mismatch

/-- The question whether `self` implements `trait` with the arguments `args`. -/
structure Goal where
  self : Ty
  trait : Item
  args : List Ty

namespace Goal

/-- The goal with the bound parameters replaced. -/
def subst (s : Subst) (g : Goal) : Goal := ⟨g.self.subst s, g.trait, Ty.substAll s g.args⟩

/-- The same question about another type. -/
def about (g : Goal) (self : Ty) : Goal := ⟨self, g.trait, g.args⟩

end Goal

/-- A declared trait with the names of its parameters and of its associated types. -/
structure TraitDef where
  id : Item
  params : List Text
  assoc : List Text

def TraitDef.hasAssoc (d : TraitDef) (name : Text) : Bool := d.assoc.contains name

/-- An implementation. It applies to the goals that match `header` if its `obligations` hold. -/
structure Impl where
  generics : List Text
  header : Goal
  assoc : List (Text × Ty)
  obligations : List Goal

/-- Why no implementation was selected, or none of its associated types projected. -/
inductive SelectionError where
  | noImpl
  | ambiguous
  | noSuchAssoc
  | cycle
  | unknownTrait
deriving DecidableEq

def SelectionError.message : SelectionError → Text
  | .noImpl => "no impl"
  | .ambiguous => "ambiguous"
  | .noSuchAssoc => "no such associated type"
  | .cycle => "cycle"
  | .unknownTrait => "unknown trait"

/-- The implementation that answers a goal and the types of its parameters. -/
structure Selection where
  impl : Impl
  subst : Subst

/-- The answer to a goal. -/
abbrev Outcome := Except SelectionError Selection

def Outcome.message : Outcome → Text
  | .ok _ => "selected"
  | .error e => e.message

/-- The items that the engine asks for by their role. One that is absent does not exist in the
program under examination. -/
structure KnownItems where
  fromTrait : Option Item
  tryFromTrait : Option Item
  fromStrTrait : Option Item
  toOwnedTrait : Option Item
  toStringTrait : Option Item
  borrowTrait : Option Item
  borrowMutTrait : Option Item
  asRefTrait : Option Item
  asMutTrait : Option Item
  derefTrait : Option Item
  resultType : Option Item
  stringType : Option Item

namespace KnownItems

def none : KnownItems :=
  ⟨.none, .none, .none, .none, .none, .none, .none, .none, .none, .none, .none, .none⟩

/-- The owned string type. -/
def stringTy? (k : KnownItems) : Option Ty := k.stringType.map (.adt · [])

end KnownItems
end Mismatch
