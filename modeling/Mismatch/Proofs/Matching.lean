import Mismatch.Proofs.Matched
import Mismatch.Proofs.Search

/-!
# Matching types without inference variables

An inference variable matches what it may stand for and nothing is learned from it. A type without
inference variables is an instance of the patterns that match it: the bindings of the match, and all
that extend them, make the pattern equivalent to the type (`Ty.matchTy_subst`). Hence a goal without
inference variables is an instance of the header of every implementation that applies to it
(`Impl.under?_definite`), and leads to obligations without inference variables.
-/

namespace Mismatch

/-- The first substitution's bindings are all in the second. -/
def Subst.Le (s s' : Subst) : Prop := ∀ a u, s.get? a = some u → s'.get? a = some u

/-- No type that is bound has an inference variable. -/
def Subst.Definite (s : Subst) : Prop := ∀ a u, s.get? a = some u → u.containsInfer = false

/-- The goal has no inference variable. -/
def Goal.Definite (g : Goal) : Prop :=
  g.self.containsInfer = false ∧ ∀ t ∈ g.args, t.containsInfer = false

instance : DecidablePred Goal.Definite := fun g =>
  inferInstanceAs (Decidable (g.self.containsInfer = false ∧ _))

namespace Ty

def containsInferAny (ts : List Ty) : Bool := (nodesAll ts).any isInfer

@[simp]
theorem containsInferAny_cons (t : Ty) (ts : List Ty) :
    containsInferAny (t :: ts) = (t.containsInfer || containsInferAny ts) := by
  simp [containsInferAny, containsInfer, nodesAll]

@[simp]
theorem containsInfer_ref (m : Mutability) (t : Ty) :
    (ref m t).containsInfer = t.containsInfer := by
  simp [containsInfer, nodes, isInfer]

@[simp]
theorem containsInfer_slice (t : Ty) : (slice t).containsInfer = t.containsInfer := by
  simp [containsInfer, nodes, isInfer]

@[simp]
theorem containsInfer_adt (i : Item) (ts : List Ty) :
    (adt i ts).containsInfer = containsInferAny ts := by
  simp [containsInfer, containsInferAny, nodes, isInfer]

@[simp]
theorem containsInfer_tuple (ts : List Ty) : (tuple ts).containsInfer = containsInferAny ts := by
  simp [containsInfer, containsInferAny, nodes, isInfer]

theorem containsInferAny_eq_false {ts : List Ty} :
    containsInferAny ts = false ↔ ∀ t ∈ ts, t.containsInfer = false := by
  induction ts with
  | nil => simp [containsInferAny, nodesAll]
  | cons t ts ih => simp [ih]

end Ty

namespace Subst
variable {s s' s'' : Subst} {a : Text} {t : Ty}

theorem Le.refl (s : Subst) : s.Le s := fun _ _ h => h

theorem Le.trans (h : s.Le s') (h' : s'.Le s'') : s.Le s'' := fun a u hu => h' a u (h a u hu)

theorem get?_bind_self (s : Subst) (a : Text) (t : Ty) : (s.bind a t).get? a = some t := by
  simp [bind, get?]

theorem get?_bind_ne {b : Text} (h : b ≠ a) (s : Subst) (t : Ty) :
    (s.bind a t).get? b = s.get? b := by
  simp [bind, get?, List.lookup_cons, beq_eq_false_iff_ne.2 h]

theorem le_bind (h : s.get? a = none) (t : Ty) : s.Le (s.bind a t) := by
  intro b u hu
  have hne : b ≠ a := by
    rintro rfl
    rw [h] at hu
    cases hu
  rw [get?_bind_ne hne, hu]

theorem definite_nil : Definite [] := fun _ _ h => nomatch h

theorem Definite.bind (hs : s.Definite) (ht : t.containsInfer = false) :
    (s.bind a t).Definite := by
  intro b u hu
  by_cases hb : b = a
  · subst hb
    rw [get?_bind_self] at hu
    obtain rfl := Option.some.inj hu
    exact ht
  · rw [get?_bind_ne hb] at hu
    exact hs b u hu

end Subst

namespace Ty

/-- The match extends the bindings, and under all that extend the result the pattern is the type. -/
structure Instance (p t : Ty) (s s' : Subst) : Prop where
  le : s.Le s'
  definite : s.Definite → s'.Definite
  bare_eq : ∀ {s'' : Subst}, s'.Le s'' → (p.subst s'').bare = t.bare

theorem agree_instance {a : Text} {t : Ty} {s s' : Subst} (ht : t.containsInfer = false)
    (h : s.agree a t = (true, s')) : Instance (.param a) t s s' := by
  simp only [Subst.agree] at h
  cases hu : s.get? a with
  | some u =>
    rw [hu] at h
    obtain ⟨he, rfl⟩ := Prod.mk.inj h
    refine ⟨.refl s, fun hs => hs, fun hle => ?_⟩
    rw [subst, hle a u hu, Option.getD_some, (equiv_iff u t).1 he]
  | none =>
    rw [hu] at h
    obtain ⟨-, rfl⟩ := Prod.mk.inj h
    refine ⟨Subst.le_bind hu t, fun hs => hs.bind ht, fun hle => ?_⟩
    rw [subst, hle a t (Subst.get?_bind_self s a t), Option.getD_some]

theorem eq_bind_of_matchTy_param {a : Text} {t : Ty} {s s' : Subst} (hs : s.get? a = none)
    (h : matchTy (.param a) t s = (true, s')) : s' = s.bind a t := by
  by_cases hm : t = .missing
  · subst hm
    cases h
  · rw [matchTy_param a s hm, Subst.agree, hs] at h
    exact (Prod.mk.inj h).2.symm

theorem matchTy_of_matchEach {p t : Ty} {s s' : Subst} (h : matchEach [p] [t] s = (true, s')) :
    matchTy p t s = (true, s') := by
  rw [matchEach] at h
  split at h
  · rename_i hp
    exact hp.trans h
  · cases h

/-- The same of patterns and types place by place. -/
structure InstanceEach (ps ts : List Ty) (s s' : Subst) : Prop where
  le : s.Le s'
  definite : s.Definite → s'.Definite
  bare_eq : ∀ {s'' : Subst}, s'.Le s'' → bareAll (substAll s'' ps) = bareAll ts

theorem InstanceEach.cons {p t : Ty} {ps ts : List Ty} {s s₁ s' : Subst} (h : Instance p t s s₁)
    (hs : InstanceEach ps ts s₁ s') : InstanceEach (p :: ps) (t :: ts) s s' :=
  ⟨h.le.trans hs.le, fun hd => hs.definite (h.definite hd), fun hle => by
    rw [substAll, bareAll, bareAll, h.bare_eq (hs.le.trans hle), hs.bare_eq hle]⟩

mutual

theorem Matches.toInstance : ∀ {p t : Ty} {s s' : Subst}, Matches p t s s' →
    t.containsInfer = false → Instance p t s s'
  | _, _, _, _, .param agrees, ht => agree_instance ht agrees
  | _, _, _, _, .ref inner, ht | _, _, _, _, .slice inner, ht => by
    have hi := inner.toInstance (by simpa using ht)
    exact ⟨hi.le, hi.definite, fun hle => by rw [subst, bare, bare, hi.bare_eq hle]⟩
  | _, _, _, _, .adt elems, ht | _, _, _, _, .tuple elems, ht => by
    have hi := elems.toInstanceEach (by simpa using ht)
    exact ⟨hi.le, hi.definite, fun hle => by rw [subst, bare, bare, hi.bare_eq hle]⟩
  | _, _, _, _, .infer _ _, ht => by simp [containsInfer, nodes, isInfer] at ht
  | _, _, _, _, .leaf leaf same, _ =>
    ⟨.refl _, fun hs => hs, fun _ => by rw [subst_leaf leaf, (equiv_iff _ _).1 same]⟩

theorem MatchesEach.toInstanceEach : ∀ {ps ts : List Ty} {s s' : Subst}, MatchesEach ps ts s s' →
    containsInferAny ts = false → InstanceEach ps ts s s'
  | _, _, _, _, .nil, _ => ⟨.refl _, fun hs => hs, fun _ => rfl⟩
  | _, _, _, _, .cons head tail, ht => by
    rw [containsInferAny_cons, Bool.or_eq_false_iff] at ht
    exact .cons (head.toInstance ht.1) (tail.toInstanceEach ht.2)

end

/-- A type without inference variables is an instance of a pattern that matches it. -/
theorem matchTy_subst (p t : Ty) {s s' : Subst} (ht : t.containsInfer = false)
    (h : matchTy p t s = (true, s')) : Instance p t s s' :=
  (matches_of_matchTy p t h).toInstance ht

end Ty

/-! ## Headers and obligations -/

section
variable {g : Goal} {i : Impl} {s : Subst}

theorem Impl.under?_inv (h : i.under? g = some s) : i.header.trait = g.trait ∧
    ∃ s₁, i.header.self.matchTy g.self [] = (true, s₁) ∧
      i.header.args.length = g.args.length ∧
      Ty.matchEach i.header.args g.args s₁ = (true, s) := by
  simp only [Impl.under?] at h
  split at h
  · rename_i htrait
    refine ⟨beq_iff_eq.1 htrait, ?_⟩
    rw [Impl.match?] at h
    split at h
    · cases h
    · rename_i s₁ hself
      refine ⟨s₁, hself, ?_⟩
      split at h
      · cases h
      · rename_i s₂ hargs
        obtain rfl := Option.some.inj h
        rw [Ty.matchAll] at hargs
        split at hargs
        · exact ⟨beq_iff_eq.1 ‹_›, hargs⟩
        · cases hargs
  · cases h

theorem Impl.matches_of_under? (h : i.under? g = some s) :
    Ty.MatchesEach (i.header.self :: i.header.args) (g.self :: g.args) [] s := by
  obtain ⟨-, s₁, hself, hl, hargs⟩ := Impl.under?_inv h
  exact .cons (Ty.matches_of_matchTy _ _ hself) (Ty.matches_of_matchEach _ _ hl hargs)

/-- The bindings of a match have no inference variables, and the goal is the header under them. -/
theorem Impl.under?_definite (hg : g.Definite) (h : i.under? g = some s) :
    s.Definite ∧ (i.header.subst s).bare = g.bare := by
  have hdefinite : Ty.containsInferAny (g.self :: g.args) = false := by
    rw [Ty.containsInferAny_cons, hg.1, Ty.containsInferAny_eq_false.2 hg.2, Bool.or_self]
  have hi := (Impl.matches_of_under? h).toInstanceEach hdefinite
  obtain ⟨eself, eargs⟩ := List.cons.inj (hi.bare_eq (.refl s))
  refine ⟨hi.definite Subst.definite_nil, ?_⟩
  rw [Goal.bare, Goal.bare, Goal.subst, eself, (Impl.under?_inv h).1, eargs]

end

namespace Ty

mutual

theorem containsInfer_subst {s : Subst} (hs : s.Definite) : ∀ t : Ty, t.containsInfer = false →
    (t.subst s).containsInfer = false
  | .param a, h => by
    rw [subst]
    cases hu : s.get? a with
    | none => exact h
    | some u => exact hs a u hu
  | .ref m t, h | .slice t, h => by
    simpa [subst] using containsInfer_subst hs t (by simpa using h)
  | .adt i ts, h | .tuple ts, h => by
    simpa [subst] using containsInferAny_subst hs ts (by simpa using h)
  | .missing, h | .num _, h | .prim _, h | .infer .., h | .unknown, h | .anon _, h => h

theorem containsInferAny_subst {s : Subst} (hs : s.Definite) : ∀ ts : List Ty,
    containsInferAny ts = false → containsInferAny (substAll s ts) = false
  | [], h => h
  | t :: ts, h => by
    rw [containsInferAny_cons, Bool.or_eq_false_iff] at h
    rw [substAll, containsInferAny_cons, containsInfer_subst hs t h.1,
      containsInferAny_subst hs ts h.2]
    rfl

end

end Ty

theorem Goal.Definite.subst {g : Goal} {s : Subst} (hs : s.Definite) (hg : g.Definite) :
    (g.subst s).Definite :=
  ⟨Ty.containsInfer_subst hs _ hg.1, Ty.containsInferAny_eq_false.1
    (Ty.containsInferAny_subst hs _ (Ty.containsInferAny_eq_false.2 hg.2))⟩

end Mismatch
