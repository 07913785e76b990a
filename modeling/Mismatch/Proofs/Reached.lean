import Mismatch.Proofs.Derivation
import Mismatch.Proofs.History

/-!
# What is selected has a derivation

A resolver may be changed and queried in any order, also such that remembered failures are out of
date or that a search was cut off by a cycle. Whatever it selects then has a derivation from the
traits and implementations that are declared at that time (`Resolver.Reached.selected_derives`).

Which goals a query asks depends on what is remembered. `TraitTable.MayAsk` and
`TraitTable.MayReach` bound them from above: they follow all implementations that apply, whether or
not these are selected.
-/

namespace Mismatch

open Select

/-! ## Types that dereferences may lead to -/

/-- The type is what some implementation that applies to the goal names. -/
def TraitTable.MayProject (T : TraitTable) (g : Goal) (name : Text) (t : Ty) : Prop :=
  ∃ i ∈ T.impls, ∃ s u, i.under? g = some s ∧ i.assoc.lookup name = some u ∧ t = u.subst s

/-- Where one dereference may lead. -/
inductive TraitTable.MayLead (T : TraitTable) : Ty → Ty → Prop
  | ref (m : Mutability) (t : Ty) : T.MayLead (.ref m t) t
  | target {t u : Ty} {g : Goal} (asks : T.derefGoal? t = some g)
      (projects : T.MayProject g "Target" u) : T.MayLead t u

/-- Where dereferences may lead. -/
inductive TraitTable.MayReach (T : TraitTable) (t : Ty) : Ty → Prop
  | start : T.MayReach t t
  | step {u v : Ty} : T.MayReach t u → T.MayLead u v → T.MayReach t v

section
variable {T : TraitTable} {A : Goal → Prop} {g h : Goal} {t u v : Ty} {name : Text}

theorem TraitTable.MayProject.congr (e : g.bare = h.bare) (hp : T.MayProject g name t) :
    ∃ u, T.MayProject h name u ∧ u.bare = t.bare := by
  obtain ⟨i, hi, s, w, hs, hw, rfl⟩ := hp
  obtain ⟨s', hs', hb⟩ := Impl.under?_of_bare_eq e hs
  refine ⟨_, ⟨i, hi, s', w, hs', hw, rfl⟩, ?_⟩
  rw [Ty.subst_bare, Ty.subst_bare, hb]

theorem TraitTable.Confines.congr (hc : Closed A) (hg : T.Confines A g) (e : g.bare = h.bare) :
    T.Confines A h := by
  intro x hx
  obtain ⟨y, hy, hyx⟩ := hx.congr e.symm
  exact hc (hg y hy) hyx

/-- The associated type of a selection that has a derivation. -/
theorem Selection.Derives.assoc {sel : Selection} (hd : sel.Derives T g)
    (ha : sel.assoc name = .ok t) : ∃ u, T.MayProject g name u ∧ u.bare = t.bare := by
  obtain ⟨s, hs, hb⟩ := hd.applies
  simp only [Selection.assoc] at ha
  cases hl : sel.impl.assoc.lookup name with
  | none => rw [hl] at ha; cases ha
  | some w =>
    rw [hl] at ha
    obtain rfl := Except.ok.inj ha
    refine ⟨_, ⟨sel.impl, hd.mem, s, w, hs, hl, rfl⟩, ?_⟩
    rw [Ty.subst_bare, Ty.subst_bare, hb]

end

/-- The type is equivalent to one that dereferences may lead to. -/
def TraitTable.Near (T : TraitTable) (t u : Ty) : Prop := ∃ v, T.MayReach t v ∧ v.bare = u.bare

theorem TraitTable.MayAsk.listed {T : TraitTable} {goals : List Goal} (h : T.closes goals = true)
    {g x : Goal} (hx : T.MayAsk g x) (hg : Listed goals g) : Listed goals x := by
  induction hx with
  | self => exact hg
  | @obligation k o i s asked mem applies needed ih =>
    obtain ⟨y, hy, e⟩ := ih
    obtain ⟨s', hs', hb⟩ := Impl.under?_of_bare_eq e.symm applies
    have hyi := List.all_eq_true.1 (List.all_eq_true.1 h y hy) i mem
    simp only [hs', List.all_eq_true, List.any_eq_true] at hyi
    obtain ⟨z, hz, hzo⟩ := hyi o needed
    exact ⟨z, hz, ((Goal.equiv_iff _ _).1 hzo).trans (Goal.subst_bare_congr hb o)⟩

/-! ## Queries -/

namespace Solver
variable {S : Solver} {A : Goal → Prop} {g : Goal} {t u : Ty}

theorem keeps_select (hA : Faithful A) (hg : S.table.Confines A g) :
    Query.Keeps (Backed S.table A) (S.select g) fun o =>
      ∀ sel, o = .ok sel → sel.Derives S.table g := by
  intro m m' o hm hr
  obtain ⟨a, ha, rfl⟩ := run_select_eq_some.1 hr
  exact keeps_solve_backed hA S.bounds.depth [] hg hm ha

theorem keeps_canSelect (hA : Faithful A) (hg : S.table.Confines A g) :
    Query.Keeps (Backed S.table A) (S.canSelect g) fun _ => True := by
  rw [canSelect_eq]
  exact (keeps_select hA hg).map fun _ _ => trivial

theorem keeps_project (hA : Faithful A) (hg : S.table.Confines A g) (name : Text) :
    Query.Keeps (Backed S.table A) (S.project g name) fun r =>
      ∀ t, r = .ok t → ∃ u, S.table.MayProject g name u ∧ u.bare = t.bare := by
  by_cases hd : S.table.Declares g.trait name
  · rw [project_of_declares hd]
    refine (keeps_select hA hg).map fun o ho t ht => ?_
    cases o with
    | error e => cases ht
    | ok sel => exact (ho sel rfl).assoc ht
  · rw [project_of_not_declares hd]
    exact .pure fun t ht => nomatch ht

section
variable (hA : Faithful A) (hc : Closed A)
  (hd : ∀ u g, S.table.MayReach t u → S.table.derefGoal? u = some g → S.table.Confines A g)
include hA hc hd

theorem keeps_derefTarget (hu : S.table.Near t u) :
    Query.Keeps (Backed S.table A) (S.derefTarget u) fun r =>
      ∀ v, r = some v → S.table.Near t v := by
  obtain ⟨w, hw, e⟩ := hu
  cases hg : S.table.derefGoal? u with
  | some g =>
    obtain ⟨h, hh, ehg⟩ := derefGoal?_of_bare_eq e.symm hg
    rw [derefTarget_of_goal hg]
    refine (keeps_project hA ((hd w h hw hh).congr hc ehg.symm) "Target").map fun r hr v hv => ?_
    cases r with
    | error e => cases hv
    | ok x =>
      obtain rfl := Option.some.inj hv
      obtain ⟨y, hy, hyx⟩ := hr x rfl
      obtain ⟨z, hz, hzy⟩ := hy.congr ehg
      exact ⟨z, hw.step (.target hh hz), hzy.trans hyx⟩
  | none =>
    rcases derefTarget_of_none hg with ⟨n, v, rfl, h⟩ | h
    · obtain ⟨x, rfl, hx⟩ := Ty.eq_ref_of_bare_eq e
      rw [h]
      refine .pure fun y hy => ?_
      obtain rfl := Option.some.inj hy
      exact ⟨x, hw.step (.ref n x), hx⟩
    · rw [h]
      exact .pure fun v hv => nomatch hv

theorem keeps_derefsAfter (start : Ty) : ∀ (room : Nat) (seen : List Ty) {last : Ty},
    S.table.Near t last →
    Query.Keeps (Backed S.table A) (S.derefsAfter start room seen last) fun chain =>
      ∀ u ∈ chain, S.table.Near t u := by
  intro room seen last hlast
  rw [derefsAfter_eq]
  refine (keeps_derefTarget hA hc hd hlast).bind fun r hr => ?_
  cases hends : chainEnds seen room r with
  | true =>
    intro m m' chain hm hrun
    obtain ⟨reports, h⟩ := run_goOn_of_ends (S := S) start hends m
    obtain ⟨rfl, rfl⟩ := Prod.mk.inj (Option.some.inj (h.symm.trans hrun))
    exact ⟨hm, fun u hu => nomatch hu⟩
  | false =>
    obtain ⟨next, room', rfl, rfl, hgo⟩ := goOn_of_not_ends (S := S) start hends
    rw [hgo]
    have hnext := hr next rfl
    refine (keeps_derefsAfter start room' (next :: seen) hnext).map fun rest hrest u hu => ?_
    rcases List.mem_cons.1 hu with rfl | hu
    · exact hnext
    · exact hrest u hu

theorem keeps_coercions :
    Query.Keeps (Backed S.table A) (S.coercions t) fun chain =>
      ∀ u ∈ chain, S.table.Near t u := by
  have hstart : S.table.Near t t := ⟨t, .start, rfl⟩
  by_cases ht : t = .missing
  · subst ht
    refine .pure fun u hu => ?_
    obtain rfl := List.mem_singleton.1 hu
    exact hstart
  · rw [coercions_of_ne_missing ht]
    refine (keeps_derefsAfter hA hc hd t _ [t] hstart).bind fun rest hrest => .report (.pure ?_)
    intro u hu
    rcases List.mem_cons.1 hu with rfl | hu
    · exact hstart
    · exact hrest u hu

end

theorem keeps_firstSelected (hA : Faithful A) : ∀ {ts : List Ty},
    (∀ u ∈ ts, S.table.Confines A (g.about u)) →
    Query.Keeps (Backed S.table A) (S.firstSelected g ts) fun r =>
      ∀ h, r = some h → S.table.Confines A h
  | [], _ => .pure fun h hh => nomatch hh
  | u :: ts, hts => by
    have hu := hts u List.mem_cons_self
    rw [firstSelected_cons]
    refine (keeps_canSelect hA hu).bind fun b _ => ?_
    cases b with
    | true =>
      refine .pure fun h hh => ?_
      obtain rfl := Option.some.inj hh
      exact hu
    | false =>
      exact keeps_firstSelected hA fun v hv => hts v (List.mem_cons_of_mem u hv)

theorem keeps_firstOfChain (hA : Faithful A) (hc : Closed A)
    (hd : ∀ u h, S.table.MayReach g.self u → S.table.derefGoal? u = some h →
      S.table.Confines A h)
    (hg : ∀ u, S.table.MayReach g.self u → S.table.Confines A (g.about u)) :
    Query.Keeps (Backed S.table A) (S.firstOfChain g) fun r =>
      ∀ h, r = some h → S.table.Confines A h := by
  refine (keeps_coercions hA hc hd).bind fun chain hchain => keeps_firstSelected hA fun u hu => ?_
  obtain ⟨v, hv, hvu⟩ := hchain u hu
  exact (hg v hv).congr hc (Goal.about_bare_congr hvu g)

end Solver

namespace Ask

/-- The goals that the query may search for, whatever is remembered. -/
def MayStart (T : TraitTable) : Ask → Goal → Prop
  | select g, h | canSelect g, h | project g _, h => h = g
  | coercions t, h => ∃ u, T.MayReach t u ∧ T.derefGoal? u = some h
  | canSelectDeref g, h | projectDeref g _, h =>
    ∃ u, T.MayReach g.self u ∧ (T.derefGoal? u = some h ∨ h = g.about u)

/-- All goals that may come up in the searches of the query are in the set. -/
def Confined (T : TraitTable) (A : Goal → Prop) (q : Ask) : Prop :=
  ∀ g, q.MayStart T g → T.Confines A g

variable {S : Solver} {A : Goal → Prop} {q : Ask}

/-- A query keeps the memory backed. -/
theorem keeps_put (hA : Faithful A) (hq : q.Confined S.table A) :
    Query.Keeps (Backed S.table (UpTo A)) (q.put S) fun _ => True := by
  have hA' := hA.upTo
  have hc : Closed (UpTo A) := closed_upTo
  have hq' : ∀ g, q.MayStart S.table g → S.table.Confines (UpTo A) g :=
    fun g hg x hx => upTo_self (hq g hg x hx)
  cases q with
  | select g => exact (Solver.keeps_select hA' (hq' g rfl)).map fun _ _ => trivial
  | canSelect g => exact (Solver.keeps_canSelect hA' (hq' g rfl)).map fun _ _ => trivial
  | project g name => exact (Solver.keeps_project hA' (hq' g rfl) name).map fun _ _ => trivial
  | coercions t =>
    exact (Solver.keeps_coercions hA' hc fun u g hu hg => hq' g ⟨u, hu, hg⟩).map fun _ _ => trivial
  | canSelectDeref g =>
    refine Query.Keeps.map (R := fun _ => True) ?_ fun _ _ => trivial
    rw [Solver.canSelectDeref_eq]
    exact (Solver.keeps_firstOfChain hA' hc (fun u h hu hh => hq' h ⟨u, hu, .inl hh⟩)
      fun u hu => hq' _ ⟨u, hu, .inr rfl⟩).map fun _ _ => trivial
  | projectDeref g name =>
    refine Query.Keeps.map (R := fun _ => True) ?_ fun _ _ => trivial
    rw [Solver.projectDeref_eq]
    refine (Solver.keeps_firstOfChain hA' hc (fun u h hu hh => hq' h ⟨u, hu, .inl hh⟩)
      fun u hu => hq' _ ⟨u, hu, .inr rfl⟩).bind fun r hr => ?_
    cases r with
    | none => exact .pure trivial
    | some h => exact (Solver.keeps_project hA' (hr h rfl) name).mono fun _ _ => trivial

end Ask

/-! ## Resolvers -/

namespace Resolver

/-- All goals that may come up in the searches of the operation are in the set. -/
def Op.Confined (A : Goal → Prop) (r : Resolver) : Op → Prop
  | ask q _ => q.Confined r.table A
  | _ => True

/-- The resolver came about by operations of any kind. -/
inductive Reached (A : Goal → Prop) : Resolver → Prop
  | empty (known : KnownItems) : Reached A (.empty known)
  | step {r r' : Resolver} (op : Op) (h : Reached A r) (hc : op.Confined A r)
      (hr : op.apply r = some r') : Reached A r'

variable {A : Goal → Prop} {r r' : Resolver} {g : Goal}

theorem trait?_addTrait_ne_none {T : TraitTable} (d : TraitDef) (id : Item)
    (h : T.trait? id ≠ none) : (T.addTrait d).trait? id ≠ none := by
  rw [TraitTable.trait?_addTrait]
  split
  · exact Option.some_ne_none d
  · exact h

/-- An operation keeps the memory backed: a new trait leaves all derivations standing, and a new
implementation empties the memory. -/
theorem Op.backed (hA : Faithful A) {op : Op} (hm : Backed r.table (UpTo A) r.cache)
    (hc : op.Confined A r) (hr : op.apply r = some r') : Backed r'.table (UpTo A) r'.cache := by
  cases op with
  | addTrait d =>
    obtain rfl := Option.some.inj hr
    exact hm.mono (T := r.table) (trait?_addTrait_ne_none d) (List.Subset.refl _)
  | addImpl i =>
    obtain rfl := Option.some.inj hr
    exact backed_nil
  | setKnown known =>
    obtain rfl := Option.some.inj hr
    exact hm.mono (T := r.table) (fun _ h => h) (List.Subset.refl _)
  | clearCache =>
    obtain rfl := Option.some.inj hr
    exact backed_nil
  | ask q B =>
    obtain ⟨⟨u, r₁, reports⟩, hask, rfl⟩ := Option.map_eq_some_iff.1 hr
    obtain ⟨⟨⟨⟩, memo⟩, hrun, he⟩ := Option.bind_eq_some_iff.1 hask
    obtain ⟨-, hr₁, -⟩ : u = () ∧ ⟨r.table, memo.cache⟩ = r₁ ∧ _ := by simpa using he
    subst hr₁
    exact (Ask.keeps_put (S := ⟨r.table, B⟩) hA hc hm hrun).1

theorem Reached.backed (hA : Faithful A) (h : Reached A r) :
    Backed r.table (UpTo A) r.cache := by
  induction h with
  | empty known => exact backed_nil
  | step op _ hc hr ih => exact op.backed hA ih hc hr

/-- After operations of any kind, a goal is selected only by an implementation of its declared trait
whose header it is, under bindings equivalent to those that are reported, and whose obligations are
derivable under these. -/
theorem Reached.selected_derives (hA : Faithful A) (h : Reached A r)
    (hg : ∀ x, r.table.MayAsk g x → A x) {B : Bounds} {i : Impl} {s : Subst}
    {reports : List Log.Event}
    (hr : (r.ask B fun S => S.select g) = some (.ok ⟨i, s⟩, r', reports)) :
    r.table.trait? g.trait ≠ none ∧ i ∈ r.table.impls ∧ i.header.trait = g.trait ∧
      (∃ s', i.match? g = some s' ∧ s'.Equiv s) ∧
      (∀ o ∈ i.obligations, Derivable r.table (o.subst s)) ∧ Derivable r.table g := by
  obtain ⟨⟨o, memo⟩, hrun, he⟩ := Option.bind_eq_some_iff.1 hr
  obtain ⟨rfl, -⟩ : o = .ok ⟨i, s⟩ ∧ _ := by simpa using he
  have hconf : r.table.Confines (UpTo A) g := fun x hx => upTo_self (hg x hx)
  obtain ⟨-, hsel⟩ := Solver.keeps_select (S := ⟨r.table, B⟩) hA.upTo hconf (h.backed hA) hrun
  have hd := hsel _ rfl
  obtain ⟨s', hs', hb⟩ := hd.applies
  have ht : i.header.trait = g.trait ∧ i.match? g = some s' := by simpa [Impl.under?] using hs'
  exact ⟨hd.known, hd.mem, ht.1, ⟨s', ht.2, Subst.equiv_of_bare_eq hb⟩, hd.holds, hd.derivable⟩

/-- A goal is selected through an obligation whose success is remembered from before the known items
were changed. -/
theorem Reached.selected_derives_box_box : ∃ r i s r' reports,
    Reached (Listed Sample.goals) r ∧ r.cache.length = 2 ∧
    (r.ask Sample.solver.bounds fun S =>
      S.select ⟨Sample.box (Sample.box .bool), Sample.marker, []⟩) =
        some (.ok ⟨i, s⟩, r', reports) ∧
    i.obligations.length = 1 ∧ ∀ o ∈ i.obligations, Derivable r.table (o.subst s) := by
  have h₁ : Reached (Listed Sample.goals) _ :=
    .step (.addTrait ⟨Sample.marker, [], []⟩) (.empty .none) trivial rfl
  have h₂ : Reached (Listed Sample.goals) _ :=
    .step (.addImpl ⟨[], ⟨.bool, Sample.marker, []⟩, [], []⟩) h₁ trivial rfl
  have h₃ : Reached (Listed Sample.goals) _ :=
    .step (.addImpl ⟨[[84]], ⟨Sample.box Sample.param, Sample.marker, []⟩, [],
      [⟨Sample.param, Sample.marker, []⟩]⟩) h₂ trivial rfl
  have hbox : ∀ {r : Resolver} {g : Goal}, r.table.closes Sample.goals = true →
      g ∈ Sample.goals → ∀ x, r.table.MayAsk g x → Listed Sample.goals x :=
    fun hcloses hg x hx => hx.listed hcloses (Sample.listed hg)
  have hask : Reached (Listed Sample.goals) _ :=
    .step (.ask (.canSelect ⟨Sample.box .bool, Sample.marker, []⟩) Sample.solver.bounds) h₃
      (by rintro g rfl; exact hbox (by decide) (by simp [Sample.goals])) rfl
  have hset : Reached (Listed Sample.goals) _ :=
    .step (.setKnown Sample.table.known) hask trivial rfl
  have hsel := hset.selected_derives Sample.faithful_goals (B := Sample.solver.bounds)
    (g := ⟨Sample.box (Sample.box .bool), Sample.marker, []⟩)
    (hbox (by decide) (by simp [Sample.goals])) rfl
  exact ⟨_, _, _, _, _, hset, rfl, rfl, rfl, hsel.2.2.2.2.1⟩

end Resolver
end Mismatch
