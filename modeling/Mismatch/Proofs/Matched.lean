import Mismatch.Proofs.Bare

/-!
# The rules of a match

The rules by which a pattern matches a type (`Ty.Matches`). Every match that succeeds follows them
(`Ty.matches_of_matchTy`), so that what holds of all matches is shown rule by rule.
-/

namespace Mismatch.Ty

/-- The type has no parts and is no parameter. -/
def isLeaf : Ty → Bool
  | .num _ | .prim _ | .infer .. | .unknown | .anon _ => true
  | .missing | .ref .. | .adt .. | .tuple _ | .slice _ | .param _ => false

theorem subst_leaf : ∀ {p : Ty}, p.isLeaf = true → ∀ s : Subst, p.subst s = p
  | .num _, _, _ | .prim _, _, _ | .infer .., _, _ | .unknown, _, _ | .anon _, _, _ => rfl

mutual

/-- What a match of the pattern `p` against the type `t` consists of, from the bindings `s` to the
bindings `s'`. Only an inference variable may stand against a pattern of another form. -/
inductive Matches : (p t : Ty) → (s s' : Subst) → Prop
  | param {a : Text} {t : Ty} {s s' : Subst} (agrees : s.agree a t = (true, s')) :
      Matches (.param a) t s s'
  | ref {m : Mutability} {p t : Ty} {s s' : Subst} (inner : Matches p t s s') :
      Matches (.ref m p) (.ref m t) s s'
  | adt {i : Item} {ps ts : List Ty} {s s' : Subst} (args : MatchesEach ps ts s s') :
      Matches (.adt i ps) (.adt i ts) s s'
  | tuple {ps ts : List Ty} {s s' : Subst} (elems : MatchesEach ps ts s s') :
      Matches (.tuple ps) (.tuple ts) s s'
  | slice {p t : Ty} {s s' : Subst} (elem : Matches p t s s') : Matches (.slice p) (.slice t) s s'
  | infer {p : Ty} {k : InferKind} {i : UInt32} {d : Text} {s : Subst} (stands : ∀ a, p ≠ .param a)
      (admits : p.admits k = true) : Matches p (.infer k i d) s s
  | leaf {p t : Ty} {s : Subst} (leaf : p.isLeaf = true) (same : p.equiv t = true) :
      Matches p t s s

/-- Matches one after the other, each from the bindings that the one before it ends with. -/
inductive MatchesEach : (ps ts : List Ty) → (s s' : Subst) → Prop
  | nil {s : Subst} : MatchesEach [] [] s s
  | cons {p t : Ty} {ps ts : List Ty} {s s₁ s' : Subst} (head : Matches p t s s₁)
      (tail : MatchesEach ps ts s₁ s') : MatchesEach (p :: ps) (t :: ts) s s'

end

mutual

theorem matches_of_matchTy : ∀ (p t : Ty) {s s' : Subst}, matchTy p t s = (true, s') →
    Matches p t s s'
  | .missing, t, _, _, h => by cases t <;> cases h
  | .param a, t, s, _, h => by
    by_cases ht : t = .missing
    · subst ht
      cases h
    · exact .param ((matchTy_param a s ht).symm.trans h)
  | .ref m p, t, _, _, h => by
    cases t with
    | ref n t =>
      rw [matchTy] at h
      split at h
      · obtain rfl := beq_iff_eq.1 ‹(m == n) = true›
        exact .ref (matches_of_matchTy p t h)
      · cases h
    | infer k i d =>
      obtain ⟨hk, rfl⟩ := Prod.mk.inj h
      exact .infer (fun _ => nofun) hk
    | _ => cases h
  | .adt i ps, t, _, _, h => by
    cases t with
    | adt j ts =>
      rw [matchTy] at h
      split at h
      · obtain ⟨hij, hl⟩ := Bool.and_eq_true_iff.1 ‹(i == j && ps.length == ts.length) = true›
        obtain rfl := beq_iff_eq.1 hij
        exact .adt (matches_of_matchEach ps ts (beq_iff_eq.1 hl) h)
      · cases h
    | infer k i d =>
      obtain ⟨hk, rfl⟩ := Prod.mk.inj h
      exact .infer (fun _ => nofun) hk
    | _ => cases h
  | .tuple ps, t, _, _, h => by
    cases t with
    | tuple ts =>
      rw [matchTy] at h
      split at h
      · exact .tuple (matches_of_matchEach ps ts (beq_iff_eq.1 ‹_›) h)
      · cases h
    | infer k i d =>
      obtain ⟨hk, rfl⟩ := Prod.mk.inj h
      exact .infer (fun _ => nofun) hk
    | _ => cases h
  | .slice p, t, _, _, h => by
    cases t with
    | slice t => exact .slice (matches_of_matchTy p t h)
    | infer k i d =>
      obtain ⟨hk, rfl⟩ := Prod.mk.inj h
      exact .infer (fun _ => nofun) hk
    | _ => cases h
  | .infer _ _ _, t, _, _, h => by
    cases t with
    | missing => cases h
    | _ =>
      obtain ⟨he, rfl⟩ := Prod.mk.inj h
      exact .leaf rfl he
  | .num _, t, _, _, h | .prim _, t, _, _, h | .unknown, t, _, _, h | .anon _, t, _, _, h => by
    cases t with
    | missing => cases h
    | infer k i d =>
      obtain ⟨hk, rfl⟩ := Prod.mk.inj h
      exact .infer (fun _ => nofun) hk
    | _ =>
      obtain ⟨he, rfl⟩ := Prod.mk.inj h
      exact .leaf rfl he

theorem matches_of_matchEach : ∀ (ps ts : List Ty) {s s' : Subst}, ps.length = ts.length →
    matchEach ps ts s = (true, s') → MatchesEach ps ts s s'
  | [], [], _, _, _, h => by
    obtain ⟨-, rfl⟩ := Prod.mk.inj h
    exact .nil
  | p :: ps, t :: ts, _, _, hl, h => by
    rw [matchEach] at h
    split at h
    · rename_i s₁ hp
      exact .cons (matches_of_matchTy p t hp) (matches_of_matchEach ps ts (Nat.succ.inj hl) h)
    · cases h

end

end Mismatch.Ty
