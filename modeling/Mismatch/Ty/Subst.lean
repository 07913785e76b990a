import Mismatch.Ty.Basic

/-!
# Substitutions

A substitution gives types to parameters by name. It is a list of bindings of which the first for a
name counts.
-/

namespace Mismatch

/-- Bindings of parameters. -/
abbrev Subst := List (Text × Ty)

namespace Subst

def get? (s : Subst) (name : Text) : Option Ty := s.lookup name

/-- The substitution with `name` bound to `t`. -/
def bind (s : Subst) (name : Text) (t : Ty) : Subst := (name, t) :: s

end Subst

namespace Ty

mutual

/-- The type with every bound parameter replaced. What is put in its place is not searched again. -/
def subst (s : Subst) : Ty → Ty
  | .param a => (s.get? a).getD (.param a)
  | .ref m t => .ref m (subst s t)
  | .adt i ts => .adt i (substAll s ts)
  | .tuple ts => .tuple (substAll s ts)
  | .slice t => .slice (subst s t)
  | t => t

def substAll (s : Subst) : List Ty → List Ty
  | [] => []
  | t :: ts => subst s t :: substAll s ts

end

end Ty
end Mismatch
