import Mathlib.Data.List.Chain
import Mismatch.Proofs.Reached
import Mismatch.Proofs.Resolution

/-!
# Parameters that are left over

What an implementation names for a goal is its associated type with the parameters replaced that the
match of its header has bound. A general inference variable matches a part of the header without
binding the parameters in it, so that these may be left over in what is named. The match binds
exactly the parameters against which a part of the goal stands (`Ty.given`), and hence a projected
type has exactly those parameters of the associated type against which nothing stands. The types of
a chain of dereferences have no parameters if and only if none is left over by a step of the chain
(`Resolver.Reached.params_iff`).
-/

namespace Mismatch

/-- The types of the bindings have no parameters. -/
def Subst.Ground (s : Subst) : Prop := ∀ a u, s.get? a = some u → u.params = []

namespace Ty

/-! ## What a match binds -/

mutual

/-- The parameters of a pattern against which a part of the type stands. An inference variable has
no parts to stand against those of the pattern. -/
def given : (pattern t : Ty) → List Text
  | .param a, _ => [a]
  | .ref _ p, .ref _ t => given p t
  | .adt _ ps, .adt _ ts => givenEach ps ts
  | .tuple ps, .tuple ts => givenEach ps ts
  | .slice p, .slice t => given p t
  | _, _ => []

def givenEach : (patterns ts : List Ty) → List Text
  | p :: ps, t :: ts => given p t ++ givenEach ps ts
  | _, _ => []

end

/-- A match against a type with the parameters `params` goes from the bindings `s` to `s'`: exactly
the parameters `names` of the pattern are bound in addition, and to types without parameters if the
type has none. -/
structure Gives (names params : List Text) (s s' : Subst) : Prop where
  bound : ∀ a, s'.get? a ≠ none ↔ s.get? a ≠ none ∨ a ∈ names
  ground : params = [] → s.Ground → s'.Ground

theorem Gives.refl (params : List Text) (s : Subst) : Gives [] params s s :=
  ⟨fun _ => by simp, fun _ hs => hs⟩

theorem Gives.append {names names' params params' : List Text} {s s₁ s' : Subst}
    (h : Gives names params s s₁) (h' : Gives names' params' s₁ s') :
    Gives (names ++ names') (params ++ params') s s' := by
  refine ⟨fun a => ?_, fun hp hs => ?_⟩
  · rw [h'.bound, h.bound, List.mem_append, or_assoc]
  · obtain ⟨hp, hp'⟩ := List.append_eq_nil_iff.1 hp
    exact h'.ground hp' (h.ground hp hs)

theorem gives_param {a : Text} {c : Ty} {s s' : Subst} (h : s.agree a c = (true, s')) :
    Gives [a] c.params s s' := by
  simp only [Subst.agree] at h
  cases hu : s.get? a with
  | some u =>
    rw [hu] at h
    obtain ⟨-, rfl⟩ := Prod.mk.inj h
    refine ⟨fun b => ⟨.inl, ?_⟩, fun _ hs => hs⟩
    rintro (hb | hb)
    · exact hb
    · rw [List.mem_singleton.1 hb, hu]
      exact Option.some_ne_none u
  | none =>
    rw [hu] at h
    obtain ⟨-, rfl⟩ := Prod.mk.inj h
    refine ⟨fun b => ?_, fun hc hs b u hb => ?_⟩
    · by_cases hba : b = a
      · simp [hba, Subst.get?_bind_self]
      · simp [hba, Subst.get?_bind_ne hba]
    · by_cases hba : b = a
      · subst hba
        rw [Subst.get?_bind_self] at hb
        obtain rfl := Option.some.inj hb
        exact hc
      · rw [Subst.get?_bind_ne hba] at hb
        exact hs b u hb

mutual

theorem Matches.gives : ∀ {p c : Ty} {s s' : Subst}, Matches p c s s' →
    Gives (given p c) c.params s s'
  | _, _, _, _, .param agrees => gives_param agrees
  | _, _, _, _, .ref inner | _, _, _, _, .slice inner => inner.gives
  | _, _, _, _, .adt elems | _, _, _, _, .tuple elems => elems.gives
  | p, .infer k i d, s, _, .infer stands _ => by
    have hnone : given p (.infer k i d) = [] := by
      cases p with
      | param a => exact absurd rfl (stands a)
      | _ => rfl
    exact hnone ▸ .refl [] s
  | p, c, s, _, .leaf leaf same => by
    have hnone : given p c = [] := by
      cases p with
      | param a => cases leaf
      | _ => cases c <;> first | rfl | cases leaf
    exact hnone ▸ .refl c.params s

theorem MatchesEach.gives : ∀ {ps cs : List Ty} {s s' : Subst}, MatchesEach ps cs s s' →
    Gives (givenEach ps cs) (paramsAll cs) s s'
  | _, _, s, _, .nil => .refl _ s
  | _, _, _, _, .cons head tail => by
    rw [givenEach, paramsAll_cons]
    exact head.gives.append tail.gives

end

mutual

/-- Where no general inference variable stands against it, every parameter of a pattern that matches
has a part of the type against it. -/
theorem Matches.params_subset_given : ∀ {p c : Ty} {s s' : Subst}, Matches p c s s' →
    (∀ v ∈ c.inferVars, v.1 ≠ .general) → p.params ⊆ given p c
  | .param a, c, _, _, .param _, _ => by cases c <;> exact List.Subset.refl _
  | _, _, _, _, .ref inner, hc | _, _, _, _, .slice inner, hc => inner.params_subset_given hc
  | _, _, _, _, .adt elems, hc | _, _, _, _, .tuple elems, hc => elems.paramsAll_subset_given hc
  | p, .infer k i d, _, _, .infer _ admits, hc => by
    cases k with
    | general => exact absurd rfl (hc (.general, i) List.mem_cons_self)
    | _ =>
      -- What an integer or a floating point number may stand for has no parts.
      cases p with
      | num => exact List.nil_subset _
      | _ => cases admits
  | p, _, _, _, .leaf leaf _, _ => by
    cases p with
    | missing | ref | adt | tuple | slice | param => cases leaf
    | _ => exact List.nil_subset _

theorem MatchesEach.paramsAll_subset_given : ∀ {ps cs : List Ty} {s s' : Subst},
    MatchesEach ps cs s s' → (∀ v ∈ inferVarsAll cs, v.1 ≠ .general) →
    paramsAll ps ⊆ givenEach ps cs
  | _, _, _, _, .nil, _ => List.nil_subset _
  | _, _, _, _, .cons head tail, hc => by
    rw [inferVarsAll_cons, List.forall_mem_append] at hc
    rw [paramsAll_cons, givenEach]
    exact List.append_subset.2
      ⟨List.subset_append_of_subset_left _ (head.params_subset_given hc.1),
        List.subset_append_of_subset_right _ (tail.paramsAll_subset_given hc.2)⟩

end

/-! ## What a substitution leaves over -/

mutual

theorem params_bare : ∀ t : Ty, t.bare.params = t.params
  | .ref _ t | .slice t => by simp [bare, params_bare t]
  | .adt _ ts | .tuple ts => by simp [bare, paramsAll_bareAll ts]
  | .missing | .num _ | .prim _ | .param _ | .infer .. | .unknown | .anon _ => rfl

theorem paramsAll_bareAll : ∀ ts : List Ty, paramsAll (bareAll ts) = paramsAll ts
  | [] => rfl
  | t :: ts => by simp [bareAll, params_bare t, paramsAll_bareAll ts]

end

mutual

/-- A parameter is left over if it is not bound: what stands for the others has none. -/
theorem mem_params_subst {s : Subst} {a : Text} (hs : s.Ground) : ∀ t : Ty,
    a ∈ (t.subst s).params ↔ a ∈ t.params ∧ s.get? a = none
  | .param b => by
    rw [subst]
    cases hb : s.get? b with
    | none =>
      simp only [Option.getD_none, params_param, List.mem_singleton]
      exact ⟨fun h => ⟨h, h ▸ hb⟩, And.left⟩
    | some u =>
      simp only [Option.getD_some, hs b u hb, params_param, List.mem_singleton, List.not_mem_nil,
        false_iff, not_and]
      rintro rfl hn
      cases hn.symm.trans hb
  | .ref _ t | .slice t => by simpa [subst] using mem_params_subst hs t
  | .adt _ ts | .tuple ts => by simpa [subst] using mem_paramsAll_substAll hs ts
  | .missing | .num _ | .prim _ | .infer .. | .unknown | .anon _ => by
    simp [subst, params, nodes, param?]

theorem mem_paramsAll_substAll {s : Subst} {a : Text} (hs : s.Ground) : ∀ ts : List Ty,
    a ∈ paramsAll (substAll s ts) ↔ a ∈ paramsAll ts ∧ s.get? a = none
  | [] => by simp [substAll, paramsAll, nodesAll]
  | t :: ts => by
    simp only [substAll, paramsAll_cons, List.mem_append, mem_params_subst hs t,
      mem_paramsAll_substAll hs ts, or_and_right]

end

end Ty

/-! ## Parameters in what is projected -/

/-- The parameters of a goal, with repetitions. -/
def Goal.params (g : Goal) : List Text := Ty.paramsAll (g.self :: g.args)

namespace Impl

/-- The parameters of the header against which a part of the goal stands. -/
def given (i : Impl) (g : Goal) : List Text :=
  Ty.givenEach (i.header.self :: i.header.args) (g.self :: g.args)

/-- The parameters of obligations and associated types are those of the header. -/
structure WellScoped (i : Impl) : Prop where
  obligations : ∀ o ∈ i.obligations, o.params ⊆ i.header.params
  assoc : ∀ b ∈ i.assoc, b.2.params ⊆ i.header.params

variable {i : Impl} {g : Goal} {s : Subst}

theorem get?_ne_none_iff (h : i.under? g = some s) {a : Text} :
    s.get? a ≠ none ↔ a ∈ i.given g := by
  rw [(matches_of_under? h).gives.bound]
  exact or_iff_right fun hnil => hnil rfl

theorem ground_of_under? (h : i.under? g = some s) (hg : g.params = []) : s.Ground :=
  (matches_of_under? h).gives.ground hg fun _ _ hu => nomatch hu

theorem params_subset_given (h : i.under? g = some s) (hg : ∀ v ∈ g.inferVars, v.1 ≠ .general) :
    i.header.params ⊆ i.given g := by
  refine (matches_of_under? h).paramsAll_subset_given ?_
  rw [Ty.inferVarsAll_cons]
  exact hg

end Impl

namespace TraitTable
variable {T : TraitTable} {g : Goal} {t u v : Ty} {name a : Text}

/-- An implementation that applies to the goal names the type for it, and its associated type has
the parameter, but no part of the goal stands against this in the header. -/
def LeavesOver (T : TraitTable) (g : Goal) (name : Text) (t : Ty) (a : Text) : Prop :=
  ∃ i ∈ T.impls, ∃ s w, i.under? g = some s ∧ i.assoc.lookup name = some w ∧
    (w.subst s).equiv t = true ∧ a ∈ w.params ∧ a ∉ i.given g

/-- A projected type has the parameters that are left over, if the goal has none. -/
theorem MayProject.mem_params (h : T.MayProject g name u) (e : u.bare = t.bare)
    (hg : g.params = []) : a ∈ t.params ↔ T.LeavesOver g name t a := by
  have hmem : ∀ {i : Impl} {s : Subst} {w : Ty}, i.under? g = some s → (w.subst s).bare = t.bare →
      (a ∈ t.params ↔ a ∈ w.params ∧ a ∉ i.given g) := fun {i s w} hs e => by
    rw [← Ty.params_bare t, ← e, Ty.params_bare, Ty.mem_params_subst (i.ground_of_under? hs hg),
      ← i.get?_ne_none_iff hs, not_not]
  constructor
  · intro ha
    obtain ⟨i, hi, s, w, hs, hw, rfl⟩ := h
    exact ⟨i, hi, s, w, hs, hw, (Ty.equiv_iff _ _).2 e, (hmem hs e).1 ha⟩
  · rintro ⟨i, -, s, w, hs, -, e, ha⟩
    exact (hmem hs ((Ty.equiv_iff _ _).1 e)).2 ha

/-- Nothing is left over for a goal without general inference variables. -/
theorem not_leavesOver (hT : ∀ i ∈ T.impls, i.WellScoped)
    (hg : ∀ v ∈ g.inferVars, v.1 ≠ .general) : ¬ T.LeavesOver g name t a := by
  rintro ⟨i, hi, s, w, hs, hw, -, ha, hnot⟩
  obtain ⟨before, after, hmem, -⟩ := List.lookup_eq_some_iff.1 hw
  exact hnot (i.params_subset_given hs hg ((hT i hi).assoc (name, w) (by simp [hmem]) ha))

/-! ## Parameters in chains -/

/-- A dereference of `u` may give `v`. -/
def MayGive (T : TraitTable) (u v : Ty) : Prop := ∃ w, T.MayLead u w ∧ w.bare = v.bare

/-- No parameter is left over in `v` as the target of a dereference of `u`. -/
def KeepsClosed (T : TraitTable) (u v : Ty) : Prop :=
  ∀ g, T.derefGoal? u = some g → ∀ a, ¬ T.LeavesOver g "Target" v a

theorem derefGoal?_inv (hg : T.derefGoal? u = some g) : g.self = u ∧ g.args = [] := by
  cases hd : T.known.derefTrait with
  | none => cases u <;> simp [derefGoal?, hd] at hg
  | some d =>
    cases u <;> simp only [derefGoal?, hd, Option.map_some, Option.some.injEq, reduceCtorEq] at hg
    all_goals
      subst hg
      exact ⟨rfl, rfl⟩

theorem params_derefGoal? (hg : T.derefGoal? u = some g) : g.params = u.params := by
  obtain ⟨hself, hargs⟩ := derefGoal?_inv hg
  rw [Goal.params, hself, hargs, Ty.paramsAll_cons]
  exact List.append_nil _

theorem MayGive.params_eq_nil (h : T.MayGive u v) (hu : u.params = []) :
    v.params = [] ↔ T.KeepsClosed u v := by
  obtain ⟨w, hw, e⟩ := h
  cases hw with
  | ref m w =>
    have hv : v.params = [] := by
      rw [← Ty.params_bare v, ← e, Ty.params_bare]
      exact hu
    exact ⟨fun _ g hg => (nomatch hg), fun _ => hv⟩
  | @target u w g hg hp =>
    have hparams := (params_derefGoal? hg).trans hu
    rw [List.eq_nil_iff_forall_not_mem]
    constructor
    · intro hv h hh a ha
      obtain rfl := Option.some.inj (hg.symm.trans hh)
      exact hv a ((hp.mem_params e hparams).2 ha)
    · exact fun hk a ha => hk g hg a ((hp.mem_params e hparams).1 ha)

/-- The types of a chain have no parameters exactly if its first type has none and none is left over
by a step. -/
theorem chain_params_eq_nil : ∀ {t : Ty} {rest : List Ty}, List.IsChain T.MayGive (t :: rest) →
    t.params = [] →
    ((∀ u ∈ t :: rest, u.params = []) ↔ List.IsChain T.KeepsClosed (t :: rest))
  | t, [], _, ht => by simpa using ht
  | t, u :: rest, h, ht => by
    obtain ⟨hstep, hrest⟩ := List.isChain_cons_cons.1 h
    rw [List.forall_mem_cons, List.isChain_cons_cons, ← hstep.params_eq_nil ht]
    constructor
    · rintro ⟨-, hall⟩
      have hu := hall u List.mem_cons_self
      exact ⟨hu, (chain_params_eq_nil hrest hu).1 hall⟩
    · rintro ⟨hu, hall⟩
      exact ⟨ht, (chain_params_eq_nil hrest hu).2 hall⟩

/-- Where dereferences may lead is followed up to equivalence. -/
theorem Near.step (h : T.Near t u) (hv : T.MayGive u v) : T.Near t v := by
  obtain ⟨x, hx, ex⟩ := h
  obtain ⟨w, hw, ew⟩ := hv
  cases hw with
  | ref m w =>
    obtain ⟨y, rfl, hy⟩ := Ty.eq_ref_of_bare_eq ex
    exact ⟨y, hx.step (.ref m y), hy.trans ew⟩
  | target hg hp =>
    obtain ⟨h, hh, egh⟩ := derefGoal?_of_bare_eq ex.symm hg
    obtain ⟨y, hy, hyw⟩ := hp.congr egh
    exact ⟨y, hx.step (.target hh hy), hyw.trans ew⟩

end TraitTable

namespace Solver
variable {S : Solver} {A : Goal → Prop} {t u : Ty} (hA : Faithful A) (hc : Closed A)
  (hd : ∀ u g, S.table.MayReach t u → S.table.derefGoal? u = some g → S.table.Confines A g)
include hA hc hd

theorem keeps_derefTarget_mayGive (hu : S.table.Near t u) :
    Query.Keeps (Backed S.table A) (S.derefTarget u) fun r =>
      ∀ v, r = some v → S.table.MayGive u v := by
  obtain ⟨w, hw, e⟩ := hu
  cases hg : S.table.derefGoal? u with
  | some g =>
    obtain ⟨h, hh, ehg⟩ := derefGoal?_of_bare_eq e.symm hg
    rw [derefTarget_of_goal hg]
    refine (keeps_project hA ((hd w h hw hh).congr hc ehg.symm) "Target").map fun r hr v hv => ?_
    cases r with
    | error e => cases hv
    | ok x =>
      obtain rfl := Option.some.inj hv
      obtain ⟨y, hy, hyx⟩ := hr x rfl
      exact ⟨y, .target hg hy, hyx⟩
  | none =>
    rcases derefTarget_of_none hg with ⟨n, v, rfl, h⟩ | h
    · rw [h]
      refine .pure fun y hy => ?_
      obtain rfl := Option.some.inj hy
      exact ⟨v, .ref n v, rfl⟩
    · rw [h]
      exact .pure fun v hv => nomatch hv

theorem keeps_derefsAfter_mayGive (start : Ty) : ∀ (room : Nat) (seen : List Ty) {last : Ty},
    S.table.Near t last →
    Query.Keeps (Backed S.table A) (S.derefsAfter start room seen last) fun rest =>
      List.IsChain S.table.MayGive (last :: rest) := by
  intro room seen last hlast
  rw [derefsAfter_eq]
  refine (keeps_derefTarget_mayGive hA hc hd hlast).bind fun r hr => ?_
  cases hends : chainEnds seen room r with
  | true =>
    intro m m' chain hm hrun
    obtain ⟨reports, h⟩ := run_goOn_of_ends (S := S) start hends m
    obtain ⟨rfl, rfl⟩ := Prod.mk.inj (Option.some.inj (h.symm.trans hrun))
    exact ⟨hm, .singleton last⟩
  | false =>
    obtain ⟨next, room', rfl, rfl, hgo⟩ := goOn_of_not_ends (S := S) start hends
    rw [hgo]
    have hnext := hr next rfl
    exact (keeps_derefsAfter_mayGive start room' (next :: seen) (hlast.step hnext)).map
      fun rest hrest => .cons_cons hnext hrest

theorem keeps_coercions_mayGive :
    Query.Keeps (Backed S.table A) (S.coercions t) fun chain =>
      ∃ rest, chain = t :: rest ∧ List.IsChain S.table.MayGive chain := by
  by_cases ht : t = .missing
  · subst ht
    exact .pure ⟨[], rfl, .singleton _⟩
  · rw [coercions_of_ne_missing ht]
    refine (keeps_derefsAfter_mayGive hA hc hd t _ [t] ⟨t, .start, rfl⟩).bind
      fun rest hrest => .report (.pure ?_)
    exact ⟨rest, rfl, hrest⟩

end Solver

namespace Resolver
variable {A : Goal → Prop} {r : Resolver}

/-- After operations of any kind, a type that is projected for a goal without parameters has exactly
the parameters that are left over, and the types of the chain of a type without parameters have none
if and only if none is left over by a step of the chain. With implementations that are well scoped
none is left over for a goal without general inference variables. -/
theorem Reached.params_iff (hA : Faithful A) (h : Reached A r) {B : Bounds} :
    (∀ {g : Goal} {name : Text} {t : Ty} {r' : Resolver} {reports : List Log.Event},
      (∀ x, r.table.MayAsk g x → A x) → g.params = [] →
      (r.ask B fun S => S.project g name) = some (.ok t, r', reports) →
      ∀ a, a ∈ t.params ↔ r.table.LeavesOver g name t a) ∧
    (∀ {t : Ty} {chain : List Ty} {r' : Resolver} {reports : List Log.Event},
      (Ask.coercions t).Confined r.table A → t.params = [] →
      (r.ask B fun S => S.coercions t) = some (chain, r', reports) →
      ((∀ u ∈ chain, u.params = []) ↔ List.IsChain r.table.KeepsClosed chain)) ∧
    ((∀ i ∈ r.table.impls, i.WellScoped) →
      ∀ {g : Goal}, (∀ v ∈ g.inferVars, v.1 ≠ .general) →
      ∀ name t a, ¬ r.table.LeavesOver g name t a) := by
  refine ⟨fun {g name t r' reports} hconf hg hr a => ?_,
    fun {t chain r' reports} hconf ht hr => ?_,
    fun hT _ hg _ _ _ => TraitTable.not_leavesOver hT hg⟩
  · obtain ⟨⟨o, memo⟩, hrun, he⟩ := Option.bind_eq_some_iff.1 hr
    obtain ⟨rfl, -⟩ : o = .ok t ∧ _ := by simpa using he
    have hconf' : r.table.Confines (UpTo A) g := fun x hx => upTo_self (hconf x hx)
    obtain ⟨-, hp⟩ :=
      Solver.keeps_project (S := ⟨r.table, B⟩) hA.upTo hconf' name (h.backed hA) hrun
    obtain ⟨u, hu, e⟩ := hp t rfl
    exact hu.mem_params e hg
  · obtain ⟨⟨o, memo⟩, hrun, he⟩ := Option.bind_eq_some_iff.1 hr
    obtain ⟨rfl, -⟩ : o = chain ∧ _ := by simpa using he
    obtain ⟨-, rest, rfl, hchain⟩ :=
      Solver.keeps_coercions_mayGive (S := ⟨r.table, B⟩) hA.upTo closed_upTo
        (fun u g hu hg x hx => upTo_self (hconf g ⟨u, hu, hg⟩ x hx)) (h.backed hA) hrun
    exact TraitTable.chain_params_eq_nil hchain ht

end Resolver

namespace Sample

/-- A box dereferences to what it owns, and nothing else can be dereferenced. -/
def boxOnly : TraitTable where
  traits := [⟨deref, [], [("Target" : Text)]⟩]
  impls := [⟨[[84]], ⟨box param, deref, []⟩, [("Target", param)], []⟩]
  known := table.known

def boxGoals : List Goal := [⟨box .bool, deref, []⟩, ⟨.bool, deref, []⟩]

theorem closes_boxGoals : boxOnly.closes boxGoals = true := by decide

theorem reached_boxOnly : Resolver.Reached (Listed boxGoals) ⟨boxOnly, []⟩ :=
  have htrait : Resolver.Reached (Listed boxGoals) _ :=
    .step (.addTrait ⟨deref, [], [("Target" : Text)]⟩) (.empty table.known) trivial rfl
  .step (.addImpl ⟨[[84]], ⟨box param, deref, []⟩, [("Target", param)], []⟩) htrait trivial rfl

theorem wellScoped_boxOnly : ∀ i ∈ boxOnly.impls, i.WellScoped := by
  intro i hi
  obtain rfl := List.mem_singleton.1 hi
  exact ⟨fun _ ho => (nomatch ho), fun b hb => by
    obtain rfl := List.mem_singleton.1 hb
    exact List.Subset.refl _⟩

/-- The parameters of the types of a chain. -/
theorem coercions_boxOnly (t : Ty) (ps : List (List Text))
    (h : ((⟨boxOnly, []⟩ : Resolver).ask solver.bounds fun S => S.coercions t).map
      (·.1.map Ty.params) = some ps) :
    ∃ chain r' reports, ((⟨boxOnly, []⟩ : Resolver).ask solver.bounds fun S => S.coercions t) =
      some (chain, r', reports) ∧ chain.map Ty.params = ps := by
  obtain ⟨⟨chain, r', reports⟩, hr, hps⟩ := Option.map_eq_some_iff.1 h
  exact ⟨chain, r', reports, hr, hps⟩

theorem mayLead_box {u : Ty} (h : boxOnly.MayLead (box .bool) u) : u = .bool := by
  cases h with
  | target asks projects =>
    obtain rfl := Option.some.inj asks
    obtain ⟨i, hi, s, w, hs, hw, rfl⟩ := projects
    obtain rfl := List.mem_singleton.1 hi
    obtain rfl := Option.some.inj hs
    obtain rfl := Option.some.inj hw
    rfl

theorem not_mayLead_bool {u : Ty} : ¬ boxOnly.MayLead .bool u := by
  intro h
  cases h with
  | target asks projects =>
    obtain rfl := Option.some.inj asks
    obtain ⟨i, hi, s, w, hs, -, -⟩ := projects
    obtain rfl := List.mem_singleton.1 hi
    cases hs

theorem mayReach_box {u : Ty} (h : boxOnly.MayReach (box .bool) u) : u = box .bool ∨ u = .bool := by
  induction h with
  | start => exact .inl rfl
  | step _ hlead ih =>
    rcases ih with rfl | rfl
    · exact .inr (mayLead_box hlead)
    · exact absurd hlead not_mayLead_bool

end Sample

namespace Resolver

/-- The target of a box has no parameters, and neither have the types of its chain. -/
theorem Reached.params_iff_box :
    (∃ t r' reports,
      ((⟨Sample.boxOnly, []⟩ : Resolver).ask Sample.solver.bounds fun S =>
        S.project ⟨Sample.box .bool, Sample.deref, []⟩ "Target") = some (.ok t, r', reports) ∧
      (∀ a, a ∈ t.params ↔
        Sample.boxOnly.LeavesOver ⟨Sample.box .bool, Sample.deref, []⟩ "Target" t a) ∧
      ∀ a, a ∉ t.params) ∧
    ∃ chain r' reports,
      ((⟨Sample.boxOnly, []⟩ : Resolver).ask Sample.solver.bounds fun S =>
        S.coercions (Sample.box .bool)) = some (chain, r', reports) ∧
      chain.map Ty.params = [[], []] ∧ (∀ u ∈ chain, u.params = []) ∧
      List.IsChain Sample.boxOnly.KeepsClosed chain := by
  have hA : Faithful (Listed Sample.boxGoals) := faithful_listed (by decide)
  have hconf : ∀ {g : Goal}, g ∈ Sample.boxGoals →
      ∀ x, Sample.boxOnly.MayAsk g x → Listed Sample.boxGoals x :=
    fun hg x hx => hx.listed Sample.closes_boxGoals (upTo_self hg)
  obtain ⟨hproject, hchain, hover⟩ :=
    Sample.reached_boxOnly.params_iff hA (B := Sample.solver.bounds)
  have hbox : Goal.params ⟨Sample.box .bool, Sample.deref, []⟩ = [] := rfl
  have hstarts : (Ask.coercions (Sample.box .bool)).Confined Sample.boxOnly
      (Listed Sample.boxGoals) := by
    rintro g ⟨u, hu, hg⟩
    rcases Sample.mayReach_box hu with rfl | rfl
    · obtain rfl := Option.some.inj hg
      exact hconf (by simp [Sample.boxGoals])
    · obtain rfl := Option.some.inj hg
      exact hconf (by simp [Sample.boxGoals])
  have hparams : ∀ a, a ∈ Ty.bool.params ↔
      Sample.boxOnly.LeavesOver ⟨Sample.box .bool, Sample.deref, []⟩ "Target" .bool a :=
    hproject (hconf (by simp [Sample.boxGoals])) hbox rfl
  obtain ⟨chain, r', reports, hr, hps⟩ :=
    Sample.coercions_boxOnly (Sample.box .bool) [[], []] (by decide +kernel)
  have hclosed : ∀ u ∈ chain, u.params = [] := by
    intro u hu
    have hmem := List.mem_map_of_mem (f := Ty.params) hu
    rw [hps] at hmem
    simpa using hmem
  refine ⟨⟨_, _, _, rfl, hparams, fun a ha => ?_⟩, chain, r', reports, hr, hps, hclosed,
    (hchain hstarts rfl hr).1 hclosed⟩
  exact hover Sample.wellScoped_boxOnly (by decide) _ _ _ ((hparams a).1 ha)

/-- A box of a parameter matches a general inference variable without binding its parameter, which
is left over in the target and in the chain. -/
theorem not_closed_general :
    (∀ i ∈ Sample.boxOnly.impls, i.WellScoped) ∧
    (∀ i ∈ Sample.boxOnly.impls, i.header.self.whole = true ∧ i.header.args = [] ∧
      i.obligations = [] ∧ ∀ b ∈ i.assoc, b.2.whole = true) ∧
    (Ty.fresh .general 0).whole = true ∧ (Ty.fresh .general 0).params = [] ∧
    (∃ t r' reports,
      ((⟨Sample.boxOnly, []⟩ : Resolver).ask Sample.solver.bounds fun S =>
        S.project ⟨.fresh .general 0, Sample.deref, []⟩ "Target") = some (.ok t, r', reports) ∧
      t.params ≠ []) ∧
    ∃ chain r' reports,
      ((⟨Sample.boxOnly, []⟩ : Resolver).ask Sample.solver.bounds fun S =>
        S.coercions (.fresh .general 0)) = some (chain, r', reports) ∧
      ∃ u ∈ chain, u.params ≠ [] := by
  have hwhole : ∀ i ∈ Sample.boxOnly.impls, i.header.self.whole = true ∧ i.header.args = [] ∧
      i.obligations = [] ∧ ∀ b ∈ i.assoc, b.2.whole = true := by
    intro i hi
    obtain rfl := List.mem_singleton.1 hi
    exact ⟨rfl, rfl, rfl, by simp [Ty.whole, Sample.param]⟩
  obtain ⟨chain, r', reports, hr, hps⟩ :=
    Sample.coercions_boxOnly (.fresh .general 0) [[], [[84]]] (by decide +kernel)
  have hleft : ∃ u ∈ chain, u.params = [[84]] := List.mem_map.1 (hps ▸ by simp)
  obtain ⟨u, hu, he⟩ := hleft
  refine ⟨Sample.wellScoped_boxOnly, hwhole, rfl, rfl,
    ⟨Sample.param, _, _, rfl, List.cons_ne_nil _ _⟩, chain, r', reports, hr, u, hu, ?_⟩
  rw [he]
  exact List.cons_ne_nil _ _

end Resolver
end Mismatch
