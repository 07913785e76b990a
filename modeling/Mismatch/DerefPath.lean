import Mismatch.Expr
import Mismatch.Trait.Deref

/-!
# Paths of dereferences and references

A way from one type to another: dereference the expression a number of times, then take references
to what that gives. A path is looked for by peeling the references off the expected type and
finding the first type in the chain of the actual one that is a layer of the expected type. Mutable
references need a mutable place that is reached through mutable references only.
-/

namespace Mismatch

/-- Dereferences to be made first, then references to be taken, listed from the outermost one. -/
structure DerefPath where
  derefs : Nat
  refs : List Mutability

/-- The layers of a type under its outer references, each with the references above it. -/
def Ty.layers : Ty → List (List Mutability × Ty)
  | .ref m t => ([], .ref m t) :: t.layers.map fun (ms, u) => (m :: ms, u)
  | t => [([], t)]

def Ty.isSharedRef : Ty → Bool
  | .ref .immutable _ => true
  | _ => false

namespace DerefPath

/-- The path to the first type of the chain that is a layer of the expected type, and among the
layers it is, to the outermost. -/
def locate (layers : List (List Mutability × Ty)) : (derefs : Nat) → (chain : List Ty) →
    Option DerefPath
  | _, [] => none
  | derefs, t :: ts =>
    match layers.find? fun l => t.equiv l.2 with
    | some l => some ⟨derefs, l.1⟩
    | none => locate layers (derefs + 1) ts

def needsMut (p : DerefPath) : Bool := p.refs.contains .mutable

/-- Whether a mutable borrow may go this way along the chain. -/
def mayBorrowMut (p : DerefPath) (chain : List Ty) (e : Expr) : Bool :=
  e.mutablePlace && !(chain.take (p.derefs + 1)).any (·.isSharedRef)

/-- A path by which the expression, which has the type `actual`, gets the expected type. -/
def find (S : Solver) (expected actual : Ty) (e : Expr) : Query (Option DerefPath) := do
  let chain ← S.coercions actual
  match locate expected.layers 0 chain with
  | none => do
    Query.report .trace "coerce"
      (Text.join ["no deref/ref path from `", actual.text, "` to `", expected.text, "`"])
    return none
  | some p =>
    if p.needsMut && !p.mayBorrowMut chain e then do
      Query.report .debug "coerce"
        (Text.join ["path to `", expected.text, "` needs a mutable borrow of `", e.text,
          "`, which is not a mutable place"])
      return none
    else do
      Query.report .trace "coerce"
        (Text.join ["path found: derefs=", Text.ofNat p.derefs, " refs=",
          Text.ofNat p.refs.length])
      return some p

/-- The type at the end of the path that starts with a chain of dereferences. It is missing where
the chain is too short. -/
def apply (p : DerefPath) (chain : List Ty) : Ty :=
  match chain[p.derefs]? with
  | none => .missing
  | some t => p.refs.foldr .ref t

/-- The expression with the operators of the path in front of it. -/
def render (p : DerefPath) (text : Text) : Text :=
  let borrows := p.refs.flatMap fun
    | .immutable => Text.ofString "&"
    | .mutable => Text.ofString "&mut "
  borrows ++ List.replicate p.derefs (Text.byte '*') ++ text

end DerefPath
end Mismatch
