import Mismatch.Proofs.LeastMatch
import Mismatch.Proofs.Session

/-!
# What matches can be made equal

An inference variable matches a part of a pattern without being bound to it, so that a match leaves
an equation open: the variable has to turn out to be that part of the pattern under the bindings.
Where no variable occurs twice the open equations do not interfere. A variable that meets a part of
the pattern (`Ty.met`) is no part of what a parameter is bound to, and so the bindings stay as they
are when the variables are resolved (`Ty.Leaves.bound`). Hence every match can be made an equation
(`matches_resolvable`).
-/

namespace Mismatch

/-! ## Inference variables and what becomes of them -/

/-- An inference variable, whatever its display text. -/
abbrev InferVar := InferKind × UInt32

/-- What an inference variable of the kind may turn out to be. -/
inductive InferKind.Becomes : InferKind → Ty → Prop
  | int {k : NumKind} (integer : k.isInteger = true) : Becomes .int (.num k)
  | float {k : NumKind} (float : k.isFloat = true) : Becomes .float (.num k)
  | general (t : Ty) : Becomes .general t

/-- What inference variables turn out to be. Those without a type are left alone. -/
abbrev Resolution := InferVar → Option Ty

/-- Every variable turns out to be what one of its kind may be. -/
def Resolution.Admissible (r : Resolution) : Prop := ∀ v t, r v = some t → v.1.Becomes t

namespace Ty

def inferVar? : Ty → Option InferVar
  | .infer k i _ => some (k, i)
  | _ => none

/-- The inference variables of a type, in the order of the walk and with repetitions. -/
def inferVars (t : Ty) : List InferVar := t.nodes.filterMap inferVar?

def inferVarsAll (ts : List Ty) : List InferVar := (nodesAll ts).filterMap inferVar?

theorem inferVarsAll_cons (t : Ty) (ts : List Ty) :
    inferVarsAll (t :: ts) = t.inferVars ++ inferVarsAll ts := by
  simp [inferVarsAll, inferVars, nodesAll]

mutual

/-- The type with its inference variables resolved. -/
def resolve (r : Resolution) : Ty → Ty
  | .infer k i d => (r (k, i)).getD (.infer k i d)
  | .ref m t => .ref m (resolve r t)
  | .adt i ts => .adt i (resolveAll r ts)
  | .tuple ts => .tuple (resolveAll r ts)
  | .slice t => .slice (resolve r t)
  | t => t

def resolveAll (r : Resolution) : List Ty → List Ty
  | [] => []
  | t :: ts => resolve r t :: resolveAll r ts

end

mutual

theorem bare_resolve_bare (r : Resolution) : ∀ t : Ty, (t.bare.resolve r).bare = (t.resolve r).bare
  | .ref _ t | .slice t => by simp [bare, resolve, bare_resolve_bare r t]
  | .adt _ ts | .tuple ts => by simp [bare, resolve, bareAll_resolveAll_bareAll r ts]
  | .infer k i d => by
    simp only [bare, resolve]
    cases r (k, i) <;> simp [bare]
  | .missing | .num _ | .prim _ | .param _ | .unknown | .anon _ => rfl

theorem bareAll_resolveAll_bareAll (r : Resolution) : ∀ ts : List Ty,
    bareAll (resolveAll r (bareAll ts)) = bareAll (resolveAll r ts)
  | [] => rfl
  | t :: ts => by
    simp [bareAll, resolveAll, bare_resolve_bare r t, bareAll_resolveAll_bareAll r ts]

end

/-- Equivalent types are equivalent when they are resolved. -/
theorem resolve_bare_congr (r : Resolution) {t u : Ty} (e : t.bare = u.bare) :
    (t.resolve r).bare = (u.resolve r).bare := by
  rw [← bare_resolve_bare, e, bare_resolve_bare]

mutual

/-- A type whose inference variables are left alone stays as it is. -/
theorem resolve_eq_self {r : Resolution} : ∀ t : Ty, (∀ v ∈ t.inferVars, r v = none) →
    t.resolve r = t
  | .ref _ t, h | .slice t, h => by rw [resolve, resolve_eq_self t h]
  | .adt _ ts, h | .tuple ts, h => by rw [resolve, resolveAll_eq_self ts h]
  | .infer k i d, h => by rw [resolve, h (k, i) List.mem_cons_self, Option.getD_none]
  | .missing, _ | .num _, _ | .prim _, _ | .param _, _ | .unknown, _ | .anon _, _ => rfl

theorem resolveAll_eq_self {r : Resolution} : ∀ ts : List Ty,
    (∀ v ∈ inferVarsAll ts, r v = none) → resolveAll r ts = ts
  | [], _ => rfl
  | t :: ts, h => by
    rw [inferVarsAll_cons, List.forall_mem_append] at h
    rw [resolveAll, resolve_eq_self t h.1, resolveAll_eq_self ts h.2]

end

end Ty

/-- The bindings with the inference variables of their types resolved. -/
def Subst.resolve (r : Resolution) (s : Subst) : Subst := s.map fun b => (b.1, b.2.resolve r)

namespace Goal

/-- The inference variables of a goal, with repetitions. -/
def inferVars (g : Goal) : List InferVar := g.self.inferVars ++ Ty.inferVarsAll g.args

/-- The goal with its inference variables resolved. -/
def resolve (r : Resolution) (g : Goal) : Goal :=
  ⟨g.self.resolve r, g.trait, Ty.resolveAll r g.args⟩

end Goal

/-! ## What a match leaves open -/

namespace Ty

mutual

/-- The inference variables of a type that meet a part of the pattern, each with that part. -/
def met : (pattern t : Ty) → List (InferVar × Ty)
  | .param _, _ => []
  | p, .infer k i _ => [((k, i), p)]
  | .ref _ p, .ref _ t => met p t
  | .adt _ ps, .adt _ ts => metEach ps ts
  | .tuple ps, .tuple ts => metEach ps ts
  | .slice p, .slice t => met p t
  | _, _ => []

def metEach : (patterns ts : List Ty) → List (InferVar × Ty)
  | p :: ps, t :: ts => met p t ++ metEach ps ts
  | _, _ => []

end

/-- A match goes from the bindings `s` to `s'`. Of the inference variables `vars` of the type, those
in `unsolved` have met a part of the pattern, and what is newly bound has none of these. If each of
them turns out to be the part that it met, under the bindings as they are then, the equation `E`
holds. -/
structure Leaves (vars : List InferVar) (unsolved : List (InferVar × Ty))
    (E : Resolution → Subst → Prop) (s s' : Subst) : Prop where
  keys : (unsolved.map Prod.fst).Sublist vars
  admits : ∀ x ∈ unsolved, x.2.admits x.1.1 = true
  le : s.Le s'
  bound : ∀ b ∈ s', b ∈ s ∨ ∀ v ∈ b.2.inferVars, v ∈ vars ∧ v ∉ unsolved.map Prod.fst
  equation : ∀ (r : Resolution) (t : Subst),
    (∀ a u, s'.get? a = some u → ((Ty.param a).subst t).bare = (u.resolve r).bare) →
    (∀ x ∈ unsolved, ∃ u, r x.1 = some u ∧ u.bare = (x.2.subst t).bare) → E r t

namespace Leaves
variable {vars vars' : List InferVar} {unsolved unsolved' : List (InferVar × Ty)}
  {E E' : Resolution → Subst → Prop} {s s₁ s' : Subst}

theorem mono (h : Leaves vars unsolved E s s') (hE : ∀ r t, E r t → E' r t) :
    Leaves vars unsolved E' s s' :=
  ⟨h.keys, h.admits, h.le, h.bound, fun r t hb hx => hE r t (h.equation r t hb hx)⟩

theorem nil (hE : ∀ r t, E r t) : Leaves vars [] E s s :=
  ⟨List.nil_sublist vars, fun _ hx => (nomatch hx), .refl s, fun _ hb => .inl hb,
    fun r t _ _ => hE r t⟩

/-- Two matches after one another, of parts that have no variable in common. -/
theorem append (h : Leaves vars unsolved E s s₁) (h' : Leaves vars' unsolved' E' s₁ s')
    (hv : ∀ v ∈ vars, ∀ w ∈ vars', v ≠ w) :
    Leaves (vars ++ vars') (unsolved ++ unsolved') (fun r t => E r t ∧ E' r t) s s' := by
  refine ⟨?_, ?_, h.le.trans h'.le, fun b hb => ?_, fun r t hb hx => ?_⟩
  · rw [List.map_append]
    exact h.keys.append h'.keys
  · exact List.forall_mem_append.2 ⟨h.admits, h'.admits⟩
  · rcases h'.bound b hb with hb | hb
    · refine (h.bound b hb).imp_right fun hnew v hvar => ?_
      obtain ⟨hmem, hne⟩ := hnew v hvar
      rw [List.map_append, List.mem_append, List.mem_append]
      exact ⟨.inl hmem, fun hk =>
        hk.elim hne fun hk => hv v hmem v (h'.keys.subset hk) rfl⟩
    · refine .inr fun v hvar => ?_
      obtain ⟨hmem, hne⟩ := hb v hvar
      rw [List.map_append, List.mem_append, List.mem_append]
      exact ⟨.inr hmem, fun hk =>
        hk.elim (fun hk => hv v (h.keys.subset hk) v hmem rfl) hne⟩
  · rw [List.forall_mem_append] at hx
    exact ⟨h.equation r t (fun a u hu => hb a u (h'.le a u hu)) hx.1, h'.equation r t hb hx.2⟩

end Leaves

/-- What a match of a pattern against a type leaves open. -/
abbrev LeavesTy (p c : Ty) : Subst → Subst → Prop :=
  Leaves c.inferVars (met p c) fun r t => (p.subst t).bare = (c.resolve r).bare

/-- The same of patterns and types place by place. -/
abbrev LeavesEach (ps cs : List Ty) : Subst → Subst → Prop :=
  Leaves (inferVarsAll cs) (metEach ps cs) fun r t =>
    bareAll (substAll t ps) = bareAll (resolveAll r cs)

theorem leaves_param {a : Text} {c : Ty} {s s' : Subst} (h : s.agree a c = (true, s')) :
    LeavesTy (.param a) c s s' := by
  have hmet : met (.param a) c = [] := by cases c <;> rfl
  rw [LeavesTy, hmet]
  simp only [Subst.agree] at h
  cases hu : s.get? a with
  | some u =>
    rw [hu] at h
    obtain ⟨he, rfl⟩ := Prod.mk.inj h
    refine ⟨List.nil_sublist _, fun _ hx => absurd hx List.not_mem_nil, .refl s,
      fun _ hb => .inl hb, fun r t hb _ => ?_⟩
    rw [hb a u hu, resolve_bare_congr r ((equiv_iff u c).1 he)]
  | none =>
    rw [hu] at h
    obtain ⟨-, rfl⟩ := Prod.mk.inj h
    refine ⟨List.nil_sublist _, fun _ hx => absurd hx List.not_mem_nil, Subst.le_bind hu c,
      fun b hb => ?_, fun r t hb _ => hb a c (Subst.get?_bind_self s a c)⟩
    rcases List.mem_cons.1 hb with rfl | hb
    · exact .inr fun v hv => ⟨hv, List.not_mem_nil⟩
    · exact .inl hb

/-- An inference variable that meets a part of a pattern. -/
theorem leaves_infer {p : Ty} {k : InferKind} {i : UInt32} {d : Text} (s : Subst)
    (hp : met p (.infer k i d) = [((k, i), p)]) (h : p.admits k = true) :
    LeavesTy p (.infer k i d) s s := by
  rw [LeavesTy, hp]
  refine ⟨List.Sublist.refl _, fun x hx => ?_, .refl s, fun _ hb => .inl hb,
    fun r t _ hx => ?_⟩
  · obtain rfl := List.mem_singleton.1 hx
    exact h
  · obtain ⟨u, hu, e⟩ := hx _ List.mem_cons_self
    rw [resolve, hu, Option.getD_some, e]

/-- A pattern without parts matches the types that it is equivalent to. -/
theorem leaves_leaf {p c : Ty} (s : Subst) (hl : p.isLeaf = true) (hp : p.containsInfer = false)
    (he : p.equiv c = true) : LeavesTy p c s s := by
  have hmet : met p c = [] := by
    cases p with
    | infer => simp [containsInfer, nodes, isInfer] at hp
    | missing | ref | adt | tuple | slice | param => cases hl
    | _ => cases c <;> first | rfl | cases he
  have hresolve : ∀ r : Resolution, p.resolve r = p := fun r => by
    cases p with
    | infer => simp [containsInfer, nodes, isInfer] at hp
    | missing | ref | adt | tuple | slice | param => cases hl
    | _ => rfl
  rw [LeavesTy, hmet]
  exact .nil fun r t => by
    rw [subst_leaf hl, ← resolve_bare_congr r ((equiv_iff p c).1 he), hresolve]

mutual

theorem Matches.leaves : ∀ {p c : Ty} {s s' : Subst}, Matches p c s s' →
    p.containsInfer = false → c.inferVars.Nodup → LeavesTy p c s s'
  | _, _, _, _, .param agrees, _, _ => leaves_param agrees
  | _, _, _, _, .ref inner, hp, hc | _, _, _, _, .slice inner, hp, hc => by
    have hi := inner.leaves (by simpa using hp) hc
    exact hi.mono fun r t e => by rw [subst, resolve, bare, bare, e]
  | _, _, _, _, .adt elems, hp, hc | _, _, _, _, .tuple elems, hp, hc => by
    have hi := elems.leavesEach (by simpa using hp) hc
    exact hi.mono fun r t e => by rw [subst, resolve, bare, bare, e]
  | p, .infer k i d, s, _, .infer stands admits, _, _ => by
    refine leaves_infer s ?_ admits
    cases p with
    | param a => exact absurd rfl (stands a)
    | _ => rfl
  | _, _, s, _, .leaf leaf same, hp, _ => leaves_leaf s leaf hp same

theorem MatchesEach.leavesEach : ∀ {ps cs : List Ty} {s s' : Subst}, MatchesEach ps cs s s' →
    containsInferAny ps = false → (inferVarsAll cs).Nodup → LeavesEach ps cs s s'
  | _, _, _, _, .nil, _, _ => .nil fun _ _ => rfl
  | _, _, _, _, .cons head tail, hp, hc => by
    rw [containsInferAny_cons, Bool.or_eq_false_iff] at hp
    rw [inferVarsAll_cons, List.nodup_append] at hc
    rw [LeavesEach, inferVarsAll_cons, metEach]
    refine ((head.leaves hp.1 hc.1).append (tail.leavesEach hp.2 hc.2.1) hc.2.2).mono
      fun r t ⟨e, es⟩ => ?_
    rw [substAll, resolveAll, bareAll, bareAll, e, es]

end

/-! ## Making a match an equation -/

/-- Each variable that has met a part of the pattern turns out to be that part under the
bindings. -/
def resolution (unsolved : List (InferVar × Ty)) (t : Subst) : Resolution :=
  fun v => (unsolved.lookup v).map (·.subst t)

theorem becomes_of_admits {p : Ty} {k : InferKind} (h : p.admits k = true) (t : Subst) :
    k.Becomes (p.subst t) := by
  cases k with
  | general => exact .general _
  | int =>
    cases p with
    | num k => exact .int h
    | _ => cases h
  | float =>
    cases p with
    | num k => exact .float h
    | _ => cases h

theorem admissible_resolution {unsolved : List (InferVar × Ty)}
    (h : ∀ x ∈ unsolved, x.2.admits x.1.1 = true) (t : Subst) :
    (resolution unsolved t).Admissible := by
  intro v u hu
  obtain ⟨p, hp, rfl⟩ := Option.map_eq_some_iff.1 hu
  obtain ⟨before, after, rfl, -⟩ := List.lookup_eq_some_iff.1 hp
  exact becomes_of_admits (h (v, p) (by simp)) t

theorem resolution_of_mem {unsolved : List (InferVar × Ty)}
    (h : (unsolved.map Prod.fst).Nodup) {x : InferVar × Ty} (hx : x ∈ unsolved) (t : Subst) :
    resolution unsolved t x.1 = some (x.2.subst t) := by
  obtain ⟨before, after, rfl⟩ := List.append_of_mem hx
  rw [List.map_append, List.nodup_append] at h
  have hlookup : (before ++ x :: after).lookup x.1 = some x.2 := by
    refine List.lookup_eq_some_iff.2 ⟨before, after, rfl, fun y hy => ?_⟩
    have hne := h.2.2 y.1 (List.mem_map_of_mem hy) x.1 List.mem_cons_self
    exact bne_iff_ne.2 hne.symm
  rw [resolution, hlookup, Option.map_some]

theorem resolution_of_not_mem {unsolved : List (InferVar × Ty)} {v : InferVar}
    (h : v ∉ unsolved.map Prod.fst) (t : Subst) : resolution unsolved t v = none := by
  have hlookup : unsolved.lookup v = none := by
    refine List.lookup_eq_none_iff.2 fun x hx => bne_iff_ne.2 ?_
    rintro rfl
    exact h (List.mem_map_of_mem hx)
  rw [resolution, hlookup, Option.map_none]

/-- The variables of a match from scratch can be resolved, whatever types the parameters without a
binding are given. -/
theorem Leaves.resolvable {vars : List InferVar} {unsolved : List (InferVar × Ty)}
    {E : Resolution → Subst → Prop} {s : Subst} (h : Leaves vars unsolved E [] s)
    (hv : vars.Nodup) (t : Subst) :
    ∃ r : Resolution, r.Admissible ∧ E r (s.resolve r ++ t) := by
  -- What is bound consists of variables that have not met a part of the pattern.
  have hkeep : ∀ b ∈ s, b.2.resolve (resolution unsolved (s ++ t)) = b.2 := by
    intro b hb
    have hnew := (h.bound b hb).resolve_left List.not_mem_nil
    exact resolve_eq_self b.2 fun v hvar => resolution_of_not_mem (hnew v hvar).2 (s ++ t)
  have hs : s.resolve (resolution unsolved (s ++ t)) = s := by
    refine (List.map_congr_left fun b hb => ?_).trans (List.map_id s)
    rw [hkeep b hb, id]
  refine ⟨_, admissible_resolution h.admits (s ++ t), ?_⟩
  rw [hs]
  refine h.equation _ _ (fun a u hu => ?_) fun x hx => ?_
  · obtain ⟨before, after, hmem, -⟩ := List.lookup_eq_some_iff.1 hu
    have hget : (s ++ t).get? a = some u := by
      rw [Subst.get?, List.lookup_append, show s.lookup a = some u from hu, Option.some_or]
    rw [hkeep (a, u) (by rw [hmem]; simp), subst, hget, Option.getD_some]
  · exact ⟨_, resolution_of_mem (hv.sublist h.keys) hx (s ++ t), rfl⟩

end Ty

/-- A header that applies to a goal matches it place by place. -/
theorem Impl.leaves_of_under? {i : Impl} {g : Goal} {s : Subst} (hi : i.header.Definite)
    (hg : g.inferVars.Nodup) (h : i.under? g = some s) :
    Ty.LeavesEach (i.header.self :: i.header.args) (g.self :: g.args) [] s := by
  refine (Impl.matches_of_under? h).leavesEach ?_ ?_
  · rw [Ty.containsInferAny_cons, hi.1, Ty.containsInferAny_eq_false.2 hi.2, Bool.or_self]
  · rw [Ty.inferVarsAll_cons]
    exact hg

/-- A match of a pattern without inference variables against a type in which none occurs twice can
be made an equation: the variables may turn out to be such that the pattern under the bindings, in
which they are resolved as well, is the type, whatever types the parameters without a binding are
given. So may the variables of a goal in which none occurs twice for every header that applies. -/
theorem matches_resolvable (t : Subst) :
    (∀ (p c : Ty) (s : Subst), p.containsInfer = false → c.inferVars.Nodup →
      p.matchTy c [] = (true, s) →
      ∃ r : Resolution, r.Admissible ∧ (p.subst (s.resolve r ++ t)).equiv (c.resolve r) = true) ∧
    ∀ (i : Impl) (g : Goal) (s : Subst), i.header.Definite → g.inferVars.Nodup →
      i.under? g = some s →
      ∃ r : Resolution, r.Admissible ∧
        (i.header.subst (s.resolve r ++ t)).equiv (g.resolve r) = true := by
  refine ⟨fun p c s hp hc h => ?_, fun i g s hi hg h => ?_⟩
  · obtain ⟨r, hr, e⟩ := ((Ty.matches_of_matchTy p c h).leaves hp hc).resolvable hc t
    exact ⟨r, hr, (Ty.equiv_iff _ _).2 e⟩
  · have hvars : (Ty.inferVarsAll (g.self :: g.args)).Nodup := by
      rw [Ty.inferVarsAll_cons]
      exact hg
    obtain ⟨r, hr, e⟩ := (i.leaves_of_under? hi hg h).resolvable hvars t
    obtain ⟨eself, eargs⟩ := List.cons.inj e
    have htrait := (Impl.under?_inv h).1
    exact ⟨r, hr, (Goal.equiv_iff _ _).2 (Goal.mk.injEq .. ▸ ⟨eself, htrait, eargs⟩)⟩

namespace Sample

/-- A box of a parameter, this parameter itself and a slice of another one. -/
def boxed : Ty := .tuple [box param, param, .slice (.param [85])]

/-- An integer between two types of which nothing is known. -/
def guessed : Ty := .tuple [.fresh .general 0, .fresh .int 1, .fresh .general 2]

def boxedImpl : Impl := ⟨[[84], [85]], ⟨boxed, marker, []⟩, [], []⟩

end Sample

/-- What the first variable has to be is only known once the parameter in the box is bound, and that
is bound to a variable in turn. The last one depends on what the other parameter is given. -/
theorem matches_resolvable_guessed :
    Sample.boxed.containsInfer = false ∧ Sample.guessed.inferVars.Nodup ∧
    Sample.boxed.matchTy Sample.guessed [] = (true, [([84], .fresh .int 1)]) ∧
    (∃ r : Resolution, r.Admissible ∧
      (Sample.boxed.subst (Subst.resolve r [([84], .fresh .int 1)] ++ [([85], .str)])).equiv
        (Sample.guessed.resolve r) = true) ∧
    ∃ r : Resolution, r.Admissible ∧
      (Sample.boxedImpl.header.subst
        (Subst.resolve r [([84], .fresh .int 1)] ++ [([85], .str)])).equiv
        (Goal.resolve r ⟨Sample.guessed, Sample.marker, []⟩) = true := by
  have hp : Sample.boxed.containsInfer = false := rfl
  have hc : Sample.guessed.inferVars.Nodup := by decide
  have hm : Sample.boxed.matchTy Sample.guessed [] = (true, [([84], .fresh .int 1)]) := rfl
  have hi : Sample.boxedImpl.header.Definite := ⟨hp, fun _ ht => nomatch ht⟩
  obtain ⟨htypes, hheaders⟩ := matches_resolvable [([85], .str)]
  exact ⟨hp, hc, hm, htypes _ _ _ hp hc hm,
    hheaders Sample.boxedImpl ⟨Sample.guessed, Sample.marker, []⟩ _ hi (by decide) rfl⟩

end Mismatch
