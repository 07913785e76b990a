import Mismatch.Prelude.Impls
import Mismatch.Proofs.Coherence
import Mismatch.Proofs.Shrinking

/-!
# The standard implementations

The table with the standard traits and implementations and no others is terminating and coherent
(`terminating_coherent`). An obligation is about the type inside of a reference, a slice or a
vector, or about the type itself and a trait with a shorter name, so that keys get shorter on the
way. The only headers that overlap are those of `ToOwned`; its implementation for all types that are
`Clone` does not hold for `str` and slices, as no implementation of `Clone` has a header for them.
-/

namespace Mismatch.Prelude

open Select

/-! ## Obligations -/

/-- The standard implementations that have obligations. -/
def conditionalImpls : List Impl :=
  boundedImpls ++
  [bounded (.slice paramT) toOwnedTrait [("Owned", vecOf paramT)] cloneTrait,
    bounded paramT toOwnedTrait [("Owned", paramT)] cloneTrait,
    bounded paramT toStringTrait [] displayTrait,
    through (.shared paramT) asRefTrait, through (.ref .mutable paramT) asRefTrait,
    through (.ref .mutable paramT) asMutTrait]

theorem filter_impls : impls.filter (fun i => !i.obligations.isEmpty) = conditionalImpls := by
  rfl

theorem obligations_or_conditional {i : Impl} (hi : i ∈ impls) :
    i.obligations = [] ∨ i ∈ conditionalImpls := by
  cases he : i.obligations.isEmpty with
  | true => exact .inl (List.isEmpty_iff.1 he)
  | false =>
    rw [← filter_impls]
    exact .inr (List.mem_filter.2 ⟨hi, by rw [he]; rfl⟩)

/-- What the pattern matches is longer than what is put for `T`, and nothing is put for `U`. -/
def Wraps (p : Ty) : Prop :=
  ∀ t s, p.matchTy t [] = (true, s) →
    (paramT.subst s).key.length < t.key.length ∧ s.get? "U" = none

theorem length_key_infer (k : InferKind) (n : UInt32) (d : Text) :
    (paramT.subst []).key.length < (Ty.infer k n d).key.length := by
  have hlen : (Ty.infer k n d).key.length = (Text.ofNat n.toNat ++ []).length + 3 := by
    cases k <;> rfl
  have hparam : (paramT.subst []).key.length = 2 := by decide
  omega

theorem wraps_ref (m : Mutability) : Wraps (.ref m paramT) := by
  intro t s h
  cases t with
  | ref n u =>
    rw [Ty.matchTy] at h
    split at h
    · obtain rfl := Ty.eq_bind_of_matchTy_param rfl h
      exact ⟨Ty.length_key_ref n u, rfl⟩
    · cases h
  | infer k n d =>
    obtain ⟨-, rfl⟩ := Prod.mk.inj h
    exact ⟨length_key_infer k n d, rfl⟩
  | _ => cases h

theorem wraps_slice : Wraps (.slice paramT) := by
  intro t s h
  cases t with
  | slice u =>
    obtain rfl := Ty.eq_bind_of_matchTy_param rfl h
    exact ⟨Ty.length_key_slice u, rfl⟩
  | infer k n d =>
    obtain ⟨-, rfl⟩ := Prod.mk.inj h
    exact ⟨length_key_infer k n d, rfl⟩
  | _ => cases h

theorem wraps_vecOf : Wraps (vecOf paramT) := by
  intro t s h
  cases t with
  | adt j ts =>
    rw [vecOf, Ty.matchTy] at h
    split at h
    · match ts, h with
      | [u], h =>
        obtain rfl := Ty.eq_bind_of_matchTy_param rfl (Ty.matchTy_of_matchEach h)
        exact ⟨Ty.length_key_adt j List.mem_cons_self, rfl⟩
      | [], _ | _ :: _ :: _, _ => simp at *
    · cases h
  | infer k n d =>
    obtain ⟨-, rfl⟩ := Prod.mk.inj h
    exact ⟨length_key_infer k n d, rfl⟩
  | _ => cases h

theorem shrinks_bounded {self : Ty} {trait bound : Item} {assoc : List (Text × Ty)}
    (h : ∀ t s, self.matchTy t [] = (true, s) →
      (paramT.subst s).key.length + bound.qualified.length <
        t.key.length + trait.qualified.length) : (bounded self trait assoc bound).Shrinks := by
  intro g s hs o ho
  obtain rfl := List.mem_singleton.1 ho
  obtain ⟨t, trait', args⟩ := g
  obtain ⟨rfl, s₁, hself, hl, hargs⟩ := Impl.under?_inv hs
  cases args with
  | cons => cases hl
  | nil =>
    obtain ⟨-, rfl⟩ := Prod.mk.inj hargs
    exact Goal.keySize_lt (h t s₁ hself) []

theorem shrinks_through {self : Ty} (trait : Item) (h : Wraps self) :
    (through self trait).Shrinks := by
  intro g s hs o ho
  obtain rfl := List.mem_singleton.1 ho
  obtain ⟨t, trait', args⟩ := g
  obtain ⟨rfl, s₁, hself, hl, hargs⟩ := Impl.under?_inv hs
  match args, hl with
  | [u], _ =>
    obtain ⟨hlt, hU⟩ := h t s₁ hself
    obtain rfl := Ty.eq_bind_of_matchTy_param hU (Ty.matchTy_of_matchEach hargs)
    have hT : paramT.subst (s₁.bind "U" u) = paramT.subst s₁ := by
      rw [paramT, Ty.subst, Ty.subst, Subst.get?_bind_ne (by decide)]
    have hU' : paramU.subst (s₁.bind "U" u) = u := by
      rw [paramU, Ty.subst, Subst.get?_bind_self, Option.getD_some]
    simp only [Goal.subst, Ty.substAll, hT, hU']
    exact Goal.keySize_lt (Nat.add_lt_add_right hlt _) [u]

theorem shrinks_conditional : ∀ i ∈ conditionalImpls, i.Shrinks := by
  have hwraps : ∀ {p : Ty} {trait bound : Item} (assoc : List (Text × Ty)), Wraps p →
      bound.qualified.length ≤ trait.qualified.length → (bounded p trait assoc bound).Shrinks :=
    fun assoc hp hle => shrinks_bounded fun t s h => Nat.add_lt_add_of_lt_of_le (hp t s h).1 hle
  have hparam : ∀ {trait bound : Item} (assoc : List (Text × Ty)),
      bound.qualified.length < trait.qualified.length →
        (bounded paramT trait assoc bound).Shrinks :=
    fun assoc hlt => shrinks_bounded fun t s h => by
      obtain rfl := Ty.eq_bind_of_matchTy_param rfl h
      exact Nat.add_lt_add_left hlt _
  simp only [conditionalImpls, boundedImpls, List.forall_mem_append, List.forall_mem_cons]
  refine ⟨⟨hwraps _ (wraps_ref _) (Nat.le_refl _), hwraps _ (wraps_ref _) (Nat.le_refl _),
    hwraps _ wraps_vecOf (Nat.le_refl _), List.forall_mem_nil _⟩,
    hwraps _ wraps_slice (by decide), hparam _ (by decide), hparam _ (by decide),
    shrinks_through _ (wraps_ref _), shrinks_through _ (wraps_ref _),
    shrinks_through _ (wraps_ref _), List.forall_mem_nil _⟩

theorem shrinks_impls : ∀ i ∈ impls, i.Shrinks := by
  intro i hi
  rcases obligations_or_conditional hi with ho | hc
  · exact Impl.shrinks_of_no_obligations ho
  · exact shrinks_conditional i hc

/-! ## Overlaps -/

theorem separate_impls : impls.Pairwise fun i j =>
    i.header.trait = j.header.trait → i.separate impls j = true :=
  have htraits : ∀ i ∈ impls, i.header.trait ∈ traits.map (·.id) := by decide +kernel
  Impl.pairwise_of_traits htraits (by decide +kernel)

theorem definite_impls : ∀ i ∈ impls, ∀ o ∈ i.obligations, o.Definite := by
  intro i hi o ho
  rcases obligations_or_conditional hi with hnil | hc
  · rw [hnil] at ho
    cases ho
  · have hall : ∀ i ∈ conditionalImpls, ∀ o ∈ i.obligations, o.Definite := by decide +kernel
    exact hall i hc o ho

/-! ## The table -/

/-- The table with the standard traits and implementations and no others. -/
def table (known : KnownItems) : TraitTable := extend (.empty known)

theorem shrinks_table (known : KnownItems) : (table known).Shrinks := shrinks_impls

theorem separate_table (known : KnownItems) : (table known).Separate :=
  ⟨separate_impls, definite_impls⟩

/-- In the table of the standard implementations, whatever is remembered, every selection comes to
an end no deeper than the key of its goal is long, and meets no cycle. A sequence of selections that
starts without a memory does not fail as a cycle, and if it is about goals without inference
variables, it finds none ambiguous: at most one implementation has such a goal as its header and
derivable obligations. Nor is such a goal ambiguous after any other history of queries, as long as
no two of the goals that came up share a key. -/
theorem terminating_coherent (known : KnownItems) :
    (∀ (B : Bounds) (g : Goal) (m : Memo), g.keySize < B.depth →
      ∃ a m', (solve (table known) B.depth [] g).run m = some (a, m') ∧
        ((Solver.mk (table known) B).select g).run m = some (a.outcome, m') ∧
        a.metCycle = false) ∧
    (∀ (B : Bounds) (gs : List Goal) (reports : List Log.Event), (∀ g ∈ gs, g.keySize < B.depth) →
      ∃ os m', (gs.mapM (Solver.mk (table known) B).select).run ⟨[], reports⟩ = some (os, m') ∧
        .error .cycle ∉ os ∧ ((∀ g ∈ gs, g.Definite) → .error .ambiguous ∉ os)) ∧
    (∀ g : Goal, g.Definite → (table known).impls.Pairwise fun i j =>
      ¬(i.Holds (table known) g ∧ j.Holds (table known) g)) ∧
    ∀ (A : Goal → Prop) (reports : List Log.Event) (m m' : Memo) (B : Bounds) (g : Goal)
      (o : Outcome), Faithful A → Session (table known) [] A ⟨[], reports⟩ m →
      (∀ x, Asks (table known) [] [] g x → A x) → g.Definite →
      ((Solver.mk (table known) B).select g).run m = some (o, m') → o ≠ .error .ambiguous := by
  have hshrinks := shrinks_table known
  have hseparate := separate_table known
  refine ⟨fun B g m hd => hshrinks.run_select hd m, fun B gs reports hd => ?_,
    fun g hg => hseparate.holds_pairwise hg,
    fun A reports m m' B g o hA h hasks hg hr => hseparate.session hA h hg hasks hr⟩
  obtain ⟨os, m', hr⟩ := hshrinks.run_selects hd ⟨[], reports⟩
  refine ⟨os, m', hr, fun ho => ?_, fun hgs ho => ?_⟩
  · have hkeep := (Lifting.keeping Cache.Acyclic).mapM fun g hg => hshrinks.keeps_select (hd g hg)
    exact (hkeep Cache.acyclic_nil hr).2 _ ho rfl
  · have hkeep := (Lifting.keeping (table known).ClearMemory).mapM fun g hg =>
      hseparate.keeps_select B (hgs g hg)
    exact (hkeep TraitTable.clearMemory_nil hr).2 _ ho rfl

/-- The goal that a slice of clonable values is `ToOwned` has two headers, but is not ambiguous. -/
theorem terminating_coherent_slice :
    (impls.filter fun i => (i.under? ⟨.slice .bool, toOwnedTrait, []⟩).isSome).length = 2 ∧
    ∃ os m', ([⟨.slice .bool, toOwnedTrait, []⟩].mapM
        (Solver.mk (table known) .standard).select).run ⟨[], []⟩ = some (os, m') ∧
      .error .cycle ∉ os ∧ .error .ambiguous ∉ os := by
  refine ⟨by decide +kernel, ?_⟩
  obtain ⟨os, m', hr, hcycle, hambiguous⟩ := (terminating_coherent known).2.1 .standard
    [⟨.slice .bool, toOwnedTrait, []⟩] [] (by decide)
  exact ⟨os, m', hr, hcycle, hambiguous (by decide)⟩

end Mismatch.Prelude
