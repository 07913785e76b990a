import Mismatch.Trait.Key
import Mismatch.Trait.Match

/-!
# Types up to display text

`Ty.bare` removes the display text of the inference variables from a type. Two types are equivalent
exactly when their bare forms are equal (`Ty.equiv_iff`), so that equivalence is handled as an
equation: substitution, matching and the keys of goals commute with `bare`, or do not see it at all.
-/

namespace Mismatch

/-! ## Types -/

namespace Ty

mutual

/-- The type without the display text of its inference variables. -/
def bare : Ty → Ty
  | .ref m t => .ref m (bare t)
  | .adt i ts => .adt i (bareAll ts)
  | .tuple ts => .tuple (bareAll ts)
  | .slice t => .slice (bare t)
  | .infer k i _ => .infer k i []
  | t => t

def bareAll : List Ty → List Ty
  | [] => []
  | t :: ts => bare t :: bareAll ts

end

mutual

theorem equiv_iff : ∀ s t : Ty, s.equiv t = true ↔ s.bare = t.bare
  | .ref _ s, t => by cases t <;> simp [equiv, bare, equiv_iff s]
  | .adt _ ss, t => by cases t <;> simp [equiv, bare, equivAll_iff ss]
  | .tuple ss, t => by cases t <;> simp [equiv, bare, equivAll_iff ss]
  | .slice s, t => by cases t <;> simp [equiv, bare, equiv_iff s]
  | .missing, t | .num _, t | .prim _, t | .param _, t | .infer .., t | .unknown, t
  | .anon _, t => by cases t <;> simp [equiv, bare]

theorem equivAll_iff : ∀ ss ts : List Ty, equivAll ss ts = true ↔ bareAll ss = bareAll ts
  | [], ts => by cases ts <;> simp [equivAll, bareAll]
  | s :: ss, ts => by cases ts <;> simp [equivAll, bareAll, equiv_iff s, equivAll_iff ss]

end

theorem bareAll_eq_map : ∀ ts : List Ty, bareAll ts = ts.map bare
  | [] => rfl
  | _ :: ts => congrArg _ (bareAll_eq_map ts)

@[simp]
theorem length_bareAll (ts : List Ty) : (bareAll ts).length = ts.length := by
  simp [bareAll_eq_map]

mutual

@[simp]
theorem bare_bare : ∀ t : Ty, t.bare.bare = t.bare
  | .ref _ t | .slice t => by simp [bare, bare_bare t]
  | .adt _ ts | .tuple ts => by simp [bare, bareAll_bareAll ts]
  | .missing | .num _ | .prim _ | .param _ | .infer .. | .unknown | .anon _ => by simp [bare]

@[simp]
theorem bareAll_bareAll : ∀ ts : List Ty, bareAll (bareAll ts) = bareAll ts
  | [] => rfl
  | t :: ts => by simp [bareAll, bare_bare t, bareAll_bareAll ts]

end

theorem equiv_refl (t : Ty) : t.equiv t = true := (equiv_iff t t).2 rfl

theorem equiv_bare (s t : Ty) : s.equiv t.bare = s.equiv t := by
  rw [Bool.eq_iff_iff, equiv_iff, equiv_iff, bare_bare]

theorem bare_equiv (s t : Ty) : s.bare.equiv t = s.equiv t := by
  rw [Bool.eq_iff_iff, equiv_iff, equiv_iff, bare_bare]

theorem bare_eq_missing (t : Ty) : t.bare = .missing ↔ t = .missing := by
  cases t <;> simp [bare]

theorem bare_eq_str (t : Ty) : t.bare = .str ↔ t = .str := by
  cases t <;> simp [bare]

theorem eq_ref_of_bare_eq {t u : Ty} {m : Mutability} (e : t.bare = (ref m u).bare) :
    ∃ v, t = .ref m v ∧ v.bare = u.bare := by
  cases t <;> simp_all [bare]

mutual

theorem keyOnto_bare : ∀ (t : Ty) (rest : Text), keyOnto t.bare rest = keyOnto t rest
  | .ref .immutable t, rest | .ref .mutable t, rest => by simp [bare, keyOnto, keyOnto_bare t]
  | .adt _ [], _ => by simp [bare, bareAll, keyOnto]
  | .adt _ (t :: ts), rest => by
    have h := keyListOnto_bareAll (t :: ts)
    simp only [bareAll] at h
    simp [bare, bareAll, keyOnto, h]
  | .tuple ts, rest => by simp [bare, keyOnto, keyEachOnto_bareAll ts]
  | .slice t, rest => by simp [bare, keyOnto, keyOnto_bare t]
  | .missing, _ | .num _, _ | .prim _, _ | .param _, _ | .infer .., _ | .unknown, _
  | .anon _, _ => by simp [bare, keyOnto]

theorem keyListOnto_bareAll : ∀ (ts : List Ty) (rest : Text),
    keyListOnto (bareAll ts) rest = keyListOnto ts rest
  | [], _ => rfl
  | [t], rest => by simp [bareAll, keyListOnto, keyOnto_bare t]
  | t :: u :: ts, rest => by
    have h := keyListOnto_bareAll (u :: ts)
    simp only [bareAll] at h
    simp [bareAll, keyListOnto, keyOnto_bare t, h]

theorem keyEachOnto_bareAll : ∀ (ts : List Ty) (rest : Text),
    keyEachOnto (bareAll ts) rest = keyEachOnto ts rest
  | [], _ => rfl
  | t :: ts, rest => by simp [bareAll, keyEachOnto, keyOnto_bare t, keyEachOnto_bareAll ts]

end

end Ty

/-! ## Substitutions -/

namespace Subst

/-- The substitution with the bare forms of the types that it gives. -/
def bare (s : Subst) : Subst := s.map fun b => (b.1, b.2.bare)

/-- The same parameters are bound, and to equivalent types. -/
def Equiv (s t : Subst) : Prop :=
  ∀ a, Option.Rel (fun u v => u.equiv v = true) (s.get? a) (t.get? a)

theorem get?_bare (s : Subst) (a : Text) : s.bare.get? a = (s.get? a).map Ty.bare := by
  induction s with
  | nil => rfl
  | cons b s ih =>
    show List.lookup a ((b.1, b.2.bare) :: bare s) = (List.lookup a (b :: s)).map Ty.bare
    rw [List.lookup_cons, List.lookup_cons]
    split
    · rfl
    · exact ih

theorem bare_bind (s : Subst) (a : Text) (t : Ty) : (s.bind a t).bare = s.bare.bind a t.bare := rfl

theorem equiv_iff {s t : Subst} :
    s.Equiv t ↔ ∀ a, (s.get? a).map Ty.bare = (t.get? a).map Ty.bare := by
  refine forall_congr' fun a => ?_
  cases s.get? a <;> cases t.get? a <;> simp [Ty.equiv_iff]

theorem equiv_of_bare_eq {s t : Subst} (h : s.bare = t.bare) : s.Equiv t :=
  equiv_iff.2 fun a => by rw [← get?_bare, ← get?_bare, h]

theorem Equiv.symm {s t : Subst} (h : s.Equiv t) : t.Equiv s :=
  equiv_iff.2 fun a => (equiv_iff.1 h a).symm

theorem Equiv.trans {s t u : Subst} (h : s.Equiv t) (h' : t.Equiv u) : s.Equiv u :=
  equiv_iff.2 fun a => (equiv_iff.1 h a).trans (equiv_iff.1 h' a)

end Subst

namespace Ty

mutual

theorem subst_bare (s : Subst) : ∀ t : Ty, (t.subst s).bare = t.bare.subst s.bare
  | .param a => by
    simp only [subst, bare, Subst.get?_bare]
    cases s.get? a <;> simp [bare]
  | .ref _ t | .slice t => by simp [bare, subst, subst_bare s t]
  | .adt _ ts | .tuple ts => by simp [bare, subst, substAll_bareAll s ts]
  | .missing | .num _ | .prim _ | .infer .. | .unknown | .anon _ => by simp [bare, subst]

theorem substAll_bareAll (s : Subst) : ∀ ts : List Ty,
    bareAll (substAll s ts) = substAll s.bare (bareAll ts)
  | [] => rfl
  | t :: ts => by simp [bareAll, substAll, subst_bare s t, substAll_bareAll s ts]

end

/-! ## Matching -/

theorem matchTy_param (a : Text) {t : Ty} (s : Subst) (h : t ≠ .missing) :
    matchTy (.param a) t s = s.agree a t := by
  cases t <;> simp_all [matchTy]

theorem agree_bare (s : Subst) (a : Text) (t : Ty) :
    s.bare.agree a t.bare = ((s.agree a t).1, (s.agree a t).2.bare) := by
  simp only [Subst.agree, Subst.get?_bare]
  cases s.get? a <;> simp [bare_equiv, equiv_bare, Subst.bare_bind]

mutual

theorem matchTy_bare : ∀ (p t : Ty) (s : Subst),
    matchTy p t.bare s.bare = ((matchTy p t s).1, (matchTy p t s).2.bare)
  | .missing, t, s => by cases t <;> simp [matchTy]
  | .param a, t, s => by
    by_cases h : t = .missing
    · simp [h, bare, matchTy]
    · rw [matchTy_param a s h, matchTy_param a s.bare (mt (bare_eq_missing t).1 h)]
      exact agree_bare s a t
  | .infer k i d, t, s => by cases t <;> simp [bare, matchTy, equiv]
  | .ref m p, t, s => by
    cases t with
    | ref n t =>
      simp only [bare, matchTy, matchTy_bare p t s]
      split <;> rfl
    | _ => simp [bare, matchTy, equiv]
  | .adt i ps, t, s => by
    cases t with
    | adt j ts =>
      simp only [bare, matchTy, length_bareAll, matchEach_bareAll ps ts s]
      split <;> rfl
    | _ => simp [bare, matchTy, equiv]
  | .tuple ps, t, s => by
    cases t with
    | tuple ts =>
      simp only [bare, matchTy, length_bareAll, matchEach_bareAll ps ts s]
      split <;> rfl
    | _ => simp [bare, matchTy, equiv]
  | .slice p, t, s => by
    cases t with
    | slice t => simp only [bare, matchTy, matchTy_bare p t s]
    | _ => simp [bare, matchTy, equiv]
  | .num _, t, s | .prim _, t, s | .unknown, t, s | .anon _, t, s => by
    cases t <;> simp [bare, matchTy, equiv]

theorem matchEach_bareAll : ∀ (ps ts : List Ty) (s : Subst),
    matchEach ps (bareAll ts) s.bare = ((matchEach ps ts s).1, (matchEach ps ts s).2.bare)
  | [], _, _ => by simp [matchEach]
  | p :: ps, [], s => by simp [bareAll, matchEach]
  | p :: ps, t :: ts, s => by
    simp only [bareAll, matchEach, matchTy_bare p t s]
    rcases matchTy p t s with ⟨b, s'⟩
    cases b with
    | true => exact matchEach_bareAll ps ts s'
    | false => rfl

end

theorem matchAll_bareAll (ps ts : List Ty) (s : Subst) :
    matchAll ps (bareAll ts) s.bare = ((matchAll ps ts s).1, (matchAll ps ts s).2.bare) := by
  simp only [matchAll, length_bareAll, matchEach_bareAll]
  split <;> rfl

end Ty

/-! ## Goals -/

namespace Goal

/-- The goal with the bare forms of its types. -/
def bare (g : Goal) : Goal := ⟨g.self.bare, g.trait, Ty.bareAll g.args⟩

/-- The same question about equivalent types. -/
def equiv (g h : Goal) : Bool :=
  g.trait == h.trait && g.self.equiv h.self && Ty.equivAll g.args h.args

theorem equiv_iff (g h : Goal) : g.equiv h = true ↔ g.bare = h.bare := by
  simp only [equiv, Bool.and_eq_true, beq_iff_eq, Ty.equiv_iff, Ty.equivAll_iff, bare, mk.injEq,
    and_left_comm, and_assoc]

theorem keyText_bare (g : Goal) : g.bare.keyText = g.keyText := by
  simp only [keyText, bare, Ty.keyOnto_bare]
  rcases g.args with _ | ⟨t, ts⟩
  · rfl
  · have h := Ty.keyListOnto_bareAll (t :: ts)
    simp only [Ty.bareAll] at h ⊢
    rw [h]

theorem key_bare (g : Goal) : g.bare.key = g.key := by
  simp only [key, keySize, keyText_bare]

theorem key_eq_of_bare_eq {g h : Goal} (e : g.bare = h.bare) : g.key = h.key := by
  rw [← key_bare g, e, key_bare]

theorem trait_eq_of_bare_eq {g h : Goal} (e : g.bare = h.bare) : g.trait = h.trait :=
  (mk.inj e).2.1

theorem subst_bare (s : Subst) (g : Goal) : (g.subst s).bare = g.bare.subst s.bare := by
  simp only [bare, subst, Ty.subst_bare, Ty.substAll_bareAll]

theorem subst_bare_congr {s t : Subst} (e : s.bare = t.bare) (g : Goal) :
    (g.subst s).bare = (g.subst t).bare := by
  rw [subst_bare, subst_bare, e]

theorem about_bare_congr₂ {g h : Goal} (eg : g.bare = h.bare) {t u : Ty} (e : t.bare = u.bare) :
    (g.about t).bare = (h.about u).bare := by
  obtain ⟨-, ht, ha⟩ := mk.inj eg
  simp only [bare, about, e, ht, ha]

theorem about_bare_congr {t u : Ty} (e : t.bare = u.bare) (g : Goal) :
    (g.about t).bare = (g.about u).bare :=
  about_bare_congr₂ rfl e

end Goal

theorem Impl.match?_bare (i : Impl) (g : Goal) :
    i.match? g.bare = (i.match? g).map Subst.bare := by
  have hself := Ty.matchTy_bare i.header.self g.self []
  simp only [Subst.bare, List.map_nil] at hself
  simp only [match?, Goal.bare, hself]
  rcases i.header.self.matchTy g.self [] with ⟨b, s⟩
  cases b with
  | false => rfl
  | true =>
    have hargs := Ty.matchAll_bareAll i.header.args g.args s
    simp only [Subst.bare] at hargs
    simp only [hargs]
    rcases Ty.matchAll i.header.args g.args s with ⟨b, s'⟩
    cases b <;> rfl

/-! ## Outcomes -/

/-- The selection with the bare form of its substitution. -/
def Selection.bare (s : Selection) : Selection := ⟨s.impl, s.subst.bare⟩

namespace Outcome

/-- The outcome with the bare form of its substitution, if it has one. -/
def bare (o : Outcome) : Outcome := o.map Selection.bare

/-- The same failure, or the same implementation under equivalent substitutions. -/
def Equiv : Outcome → Outcome → Prop
  | .ok a, .ok b => a.impl = b.impl ∧ a.subst.Equiv b.subst
  | .error e, .error f => e = f
  | _, _ => False

theorem equiv_of_bare_eq : ∀ {o p : Outcome}, o.bare = p.bare → o.Equiv p
  | .ok a, .ok b, h => by
    have h' : a.bare = b.bare := Except.ok.inj h
    exact ⟨(Selection.mk.inj h').1, Subst.equiv_of_bare_eq (Selection.mk.inj h').2⟩
  | .error _, .error _, h => Except.error.inj h
  | .ok _, .error _, h => nomatch h
  | .error _, .ok _, h => nomatch h

theorem Equiv.symm : ∀ {o p : Outcome}, o.Equiv p → p.Equiv o
  | .ok _, .ok _, ⟨hi, hs⟩ => ⟨hi.symm, hs.symm⟩
  | .error _, .error _, h => Eq.symm h

theorem Equiv.trans : ∀ {o p q : Outcome}, o.Equiv p → p.Equiv q → o.Equiv q
  | .ok _, .ok _, .ok _, ⟨hi, hs⟩, ⟨hi', hs'⟩ => ⟨hi.trans hi', hs.trans hs'⟩
  | .error _, .error _, .error _, h, h' => Eq.trans h h'

theorem isOk_bare (o : Outcome) : o.bare.isOk = o.isOk := by cases o <;> rfl

theorem isOk_eq_of_bare_eq {o p : Outcome} (e : o.bare = p.bare) : o.isOk = p.isOk := by
  rw [← isOk_bare o, e, isOk_bare]

end Outcome
end Mismatch
