import Mismatch.Trait.Basic

/-!
# Matching a header

One-sided matching of a pattern against a type: the parameters of the pattern are bound, those that
are bound already have to agree. An inference variable of the type matches what it may stand for,
without learning from it. The bindings made before a failure are part of the result.
-/

namespace Mismatch

/-- Whether a variable of this kind may stand for a type of the pattern's shape. -/
def Ty.admits : Ty → InferKind → Bool
  | .num k, .int => k.isInteger
  | .num k, .float => k.isFloat
  | _, .int => false
  | _, .float => false
  | _, .general => true

/-- Binds a parameter to a type, or compares the two if the parameter is bound. -/
def Subst.agree (s : Subst) (name : Text) (t : Ty) : Bool × Subst :=
  match s.get? name with
  | some u => (u.equiv t, s)
  | none => (true, s.bind name t)

namespace Ty

mutual

/-- Matches a pattern against a type from given bindings. -/
def matchTy : (pattern t : Ty) → Subst → Bool × Subst
  | .missing, _, s => (false, s)
  | _, .missing, s => (false, s)
  | .param a, t, s => s.agree a t
  | .infer k i d, t, s => (equiv (.infer k i d) t, s)
  | p, .infer k _ _, s => (p.admits k, s)
  | .ref m p, .ref n t, s => if m == n then matchTy p t s else (false, s)
  | .adt i ps, .adt j ts, s =>
    if i == j && ps.length == ts.length then matchEach ps ts s else (false, s)
  | .tuple ps, .tuple ts, s => if ps.length == ts.length then matchEach ps ts s else (false, s)
  | .slice p, .slice t, s => matchTy p t s
  | p, t, s => (equiv p t, s)

/-- Matches place by place until one place fails. -/
def matchEach : (patterns ts : List Ty) → Subst → Bool × Subst
  | p :: ps, t :: ts, s =>
    match matchTy p t s with
    | (true, s) => matchEach ps ts s
    | (false, s) => (false, s)
  | _, _, s => (true, s)

end

/-- Matches two lists; lists of different lengths do not match. -/
def matchAll (ps ts : List Ty) (s : Subst) : Bool × Subst :=
  if ps.length == ts.length then matchEach ps ts s else (false, s)

end Ty

/-- The bindings under which the header of the implementation is the goal, if it matches. -/
def Impl.match? (i : Impl) (g : Goal) : Option Subst :=
  match i.header.self.matchTy g.self [] with
  | (false, _) => none
  | (true, s) =>
    match Ty.matchAll i.header.args g.args s with
    | (false, _) => none
    | (true, s) => some s

end Mismatch
