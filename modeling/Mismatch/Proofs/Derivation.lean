import Mismatch.Proofs.Loops

/-!
# Derivations

A goal is derivable from a table when an implementation of its trait has it as its header and the
obligations of that implementation are derivable in turn (`Derivable`). A derivation is finite and
rests on nothing but what is declared: no goal is among the reasons for itself.

`Backed` is the invariant of the memory that a success needs: whatever is remembered as selected has
a derivation. Nothing is asked of remembered failures, so that it does not matter whether they are
out of date, nor which rivals of a selected implementation were cut off by a cycle. Every run of the
search keeps the invariant and selects only what has a derivation (`keeps_solve_backed`).
-/

namespace Mismatch

open Select

/-- The goal follows from the traits and implementations of the table. -/
inductive Derivable (T : TraitTable) : Goal → Prop
  | intro {g : Goal} {i : Impl} {s : Subst} (known : T.trait? g.trait ≠ none) (mem : i ∈ T.impls)
      (applies : i.under? g = some s) (holds : ∀ o ∈ i.obligations, Derivable T (o.subst s)) :
      Derivable T g

/-- The selection is the last step of a derivation of the goal. Its bindings are those under which
the header is the goal, up to equivalence. -/
structure Selection.Derives (sel : Selection) (T : TraitTable) (g : Goal) : Prop where
  known : T.trait? g.trait ≠ none
  mem : sel.impl ∈ T.impls
  applies : ∃ s, sel.impl.under? g = some s ∧ s.bare = sel.subst.bare
  holds : ∀ o ∈ sel.impl.obligations, Derivable T (o.subst sel.subst)

/-- The goals that may come up in a search for the goal, whatever is remembered: the goal itself and
the obligations of all implementations whose header is one of these goals. -/
inductive TraitTable.MayAsk (T : TraitTable) (g : Goal) : Goal → Prop
  | self : T.MayAsk g g
  | obligation {h o : Goal} {i : Impl} {s : Subst} (asked : T.MayAsk g h) (mem : i ∈ T.impls)
      (applies : i.under? h = some s) (needed : o ∈ i.obligations) : T.MayAsk g (o.subst s)

/-- All goals that may come up in a search for the goal are in the set. -/
def TraitTable.Confines (T : TraitTable) (A : Goal → Prop) (g : Goal) : Prop :=
  ∀ x, T.MayAsk g x → A x

/-- Every remembered success has a derivation. -/
def Backed (T : TraitTable) (A : Goal → Prop) (C : Cache) : Prop :=
  ∀ k sel, C.lookup k = some (.ok sel) → ∃ g, A g ∧ g.key = k ∧ sel.Derives T g

section
variable {T T' : TraitTable} {A : Goal → Prop} {g h x : Goal} {sel : Selection} {C : Cache}

/-! ## Equivalent goals -/

theorem Impl.under?_of_bare_eq {i : Impl} {s : Subst} (e : g.bare = h.bare)
    (hs : i.under? g = some s) : ∃ s', i.under? h = some s' ∧ s'.bare = s.bare := by
  have hi := i.under?_congr e
  rw [hs, Option.map_some, eq_comm, Option.map_eq_some_iff] at hi
  exact hi

theorem Derivable.congr (hg : Derivable T g) (e : g.bare = h.bare) : Derivable T h := by
  induction hg generalizing h with
  | @intro g i s known mem applies holds ih =>
    obtain ⟨s', hs', hb⟩ := Impl.under?_of_bare_eq e applies
    refine .intro (Goal.trait_eq_of_bare_eq e ▸ known) mem hs' fun o ho => ?_
    exact ih o ho (Goal.subst_bare_congr hb.symm o)

theorem Selection.Derives.congr (hd : sel.Derives T g) (e : g.bare = h.bare) :
    sel.Derives T h := by
  obtain ⟨s, hs, hb⟩ := hd.applies
  obtain ⟨s', hs', hb'⟩ := Impl.under?_of_bare_eq e hs
  exact ⟨Goal.trait_eq_of_bare_eq e ▸ hd.known, hd.mem, ⟨s', hs', hb'.trans hb⟩, hd.holds⟩

theorem Selection.Derives.derivable (hd : sel.Derives T g) : Derivable T g := by
  obtain ⟨s, hs, hb⟩ := hd.applies
  refine .intro hd.known hd.mem hs fun o ho => ?_
  exact (hd.holds o ho).congr (Goal.subst_bare_congr hb.symm o)

theorem TraitTable.MayAsk.congr (hx : T.MayAsk g x) (e : g.bare = h.bare) :
    ∃ y, T.MayAsk h y ∧ y.bare = x.bare := by
  induction hx with
  | self => exact ⟨h, .self, e.symm⟩
  | obligation asked mem applies needed ih =>
    obtain ⟨y, hy, hyx⟩ := ih
    obtain ⟨s', hs', hb⟩ := Impl.under?_of_bare_eq hyx.symm applies
    exact ⟨_, .obligation hy mem hs' needed, Goal.subst_bare_congr hb _⟩

theorem TraitTable.MayAsk.trans (hh : T.MayAsk g h) (hx : T.MayAsk h x) : T.MayAsk g x := by
  induction hx with
  | self => exact hh
  | obligation asked mem applies needed ih => exact .obligation ih mem applies needed

theorem TraitTable.Confines.obligation (hg : T.Confines A g) {i : Impl} {s : Subst} {o : Goal}
    (mem : i ∈ T.impls) (applies : i.under? g = some s) (needed : o ∈ i.obligations) :
    T.Confines A (o.subst s) :=
  fun x hx => hg x ((TraitTable.MayAsk.obligation .self mem applies needed).trans hx)

/-! ## Larger tables -/

/-- A derivation stays one when traits and implementations are added. -/
theorem Derivable.mono (htraits : ∀ id, T.trait? id ≠ none → T'.trait? id ≠ none)
    (himpls : T.impls ⊆ T'.impls) (hg : Derivable T g) : Derivable T' g := by
  induction hg with
  | intro known mem applies holds ih => exact .intro (htraits _ known) (himpls mem) applies ih

theorem Backed.mono (htraits : ∀ id, T.trait? id ≠ none → T'.trait? id ≠ none)
    (himpls : T.impls ⊆ T'.impls) (hC : Backed T A C) : Backed T' A C := by
  intro k sel hk
  obtain ⟨g, hg, hkey, hd⟩ := hC k sel hk
  refine ⟨g, hg, hkey, htraits _ hd.known, himpls hd.mem, hd.applies, fun o ho => ?_⟩
  exact (hd.holds o ho).mono htraits himpls

theorem backed_nil : Backed T A [] := fun _ _ hk => nomatch hk

/-- A success that is remembered for a goal of the set has a derivation. -/
theorem Backed.derives (hA : Faithful A) (hC : Backed T A C) (hg : A g)
    (hk : C.lookup g.key = some (.ok sel)) : sel.Derives T g := by
  obtain ⟨h, hh, hkey, hd⟩ := hC _ sel hk
  exact hd.congr ((Goal.equiv_iff h g).1 (hA h g hh hg hkey))

/-- An answer that is a failure or has a derivation may be remembered. -/
theorem Backed.cons (hC : Backed T A C) (hg : A g) {o : Outcome}
    (ho : ∀ sel, o = .ok sel → sel.Derives T g) : Backed T A ((g.key, o) :: C) := by
  intro k sel hk
  by_cases hkey : k = g.key
  · subst hkey
    rw [Cache.lookup_cons_self] at hk
    exact ⟨g, hg, rfl, ho sel (Option.some.inj hk)⟩
  · rw [lookup_cons_ne hkey] at hk
    exact hC k sel hk

end

namespace Select
variable {T : TraitTable} {A : Goal → Prop} {g : Goal}

/-! ## The search -/

theorem mem_of_unique_eq_ok : ∀ {found : List Selection} {sel : Selection},
    unique found = .ok sel → sel ∈ found
  | [s], _, h => by
    obtain rfl := Except.ok.inj h
    exact List.mem_cons_self

theorem atOnce?_eq_ok {C : Cache} {stack : List Key} {a : Answer} {sel : Selection}
    (ha : atOnce? T C stack g = some a) (ho : a.outcome = .ok sel) :
    C.lookup g.key = some (.ok sel) := by
  rcases atOnce?_cases ha with rfl | ⟨_, hk, rfl⟩ | ⟨-, rfl⟩
  · cases ho
  · exact hk.trans (congrArg some ho)
  · cases ho

/-- If the answer is a selection, that has a derivation. -/
def Vouched (T : TraitTable) (g : Goal) (a : Answer) : Prop :=
  ∀ sel, a.outcome = .ok sel → sel.Derives T g

theorem Found.derives {r : List Selection × Bool} (h : Found (Vouched T) g T.impls r)
    (known : T.trait? g.trait ≠ none) : ∀ sel ∈ r.1, sel.Derives T g := by
  intro sel hsel
  refine ⟨known, h.sublist.subset (List.mem_map_of_mem hsel), ⟨_, h.applies sel hsel, rfl⟩, ?_⟩
  intro o ho
  obtain ⟨a, ha, hok⟩ := h.holds sel hsel o ho
  obtain ⟨p, hp⟩ := exists_ok_iff.2 hok
  exact (ha p hp).derivable

/-- A search keeps the memory backed and selects only what has a derivation, whatever goals are on
the stack. -/
theorem keeps_solve_backed (hA : Faithful A) (depth : Nat) (stack : List Key)
    (hg : T.Confines A g) : Query.Keeps (Backed T A) (solve T depth stack g) (Vouched T g) := by
  have h : Preserved T (T.Confines A) (Backed T A) (Vouched T) :=
    { obligation := fun hg hi hs ho => hg.obligation hi hs ho
      atOnce := fun hg hC ha sel ho => hC.derives hA (hg _ .self) (atOnce?_eq_ok ha ho)
      found := fun _ known hr sel ho => hr.derives known sel (mem_of_unique_eq_ok ho)
      remember := fun hg hC ha _ => hC.cons (hg _ .self) ha }
  exact h.keeps_solve depth stack hg

end Select
end Mismatch
