import Mismatch.Proofs.Derivation
import Mismatch.Proofs.Overlap
import Mismatch.Proofs.Session

/-!
# Coherent tables

In a coherent table no goal without inference variables is answered by two implementations. Most
pairs of implementations have headers that do not overlap. Where two headers do, one of them may
have an obligation about a type that no header fits (`Impl.barred`): an implementation for all types
with some trait goes together with one for a type that is known not to have it.
`TraitTable.Separate` says that one or the other is so of any two implementations, and can be
computed.

A search in such a table never finds a goal without inference variables ambiguous. The invariant of
the memory behind this is that a success is only remembered under a key that some header has; as the
memory knows goals by their keys, obligations are told apart by them as well.
-/

namespace Mismatch

open Select

/-- The types of a goal. -/
def Goal.tys (g : Goal) : List Ty := g.self :: g.args

/-- The parameter that the goal is about and the trait, if the trait has no arguments. -/
def Goal.bound? : Goal → Option (Text × Item)
  | ⟨.param a, trait, []⟩ => some (a, trait)
  | _ => none

namespace Impl

/-- The second implementation wants a trait for a parameter, but no header has this trait and the
type that stands in the first header where the second has the parameter. -/
def barred (impls : List Impl) (i j : Impl) : Bool :=
  j.obligations.any fun o =>
    match o.bound? with
    | none => false
    | some (a, trait) =>
      (Ty.againstAll j.header.tys i.header.tys).any fun b =>
        b.1 == a && impls.all fun k => Goal.keysDiffer ⟨b.2, trait, []⟩ k.header

/-- The types of the headers do not overlap, or one of the implementations is barred by the header
of the other. -/
def separate (impls : List Impl) (i j : Impl) : Bool :=
  Ty.clashAny i.header.tys j.header.tys ||
    Ty.conflicts (Ty.againstAll i.header.tys j.header.tys) ||
    Ty.conflicts (Ty.againstAll j.header.tys i.header.tys) ||
    barred impls i j || barred impls j i

end Impl

/-- All implementations of one trait are separate, and no obligation has an inference variable. -/
structure TraitTable.Separate (T : TraitTable) : Prop where
  pairwise : T.impls.Pairwise fun i j =>
    i.header.trait = j.header.trait → i.separate T.impls j = true
  definite : ∀ i ∈ T.impls, ∀ o ∈ i.obligations, o.Definite

/-- To compare implementations of one trait it is enough to go through the traits. -/
theorem Impl.pairwise_of_traits {R : Impl → Impl → Prop} {is : List Impl} {traits : List Item}
    (htraits : ∀ i ∈ is, i.header.trait ∈ traits)
    (h : ∀ t ∈ traits, (is.filter fun i => i.header.trait == t).Pairwise R) :
    is.Pairwise fun i j => i.header.trait = j.header.trait → R i j := by
  rw [List.pairwise_iff_forall_sublist]
  intro i j hij htrait
  have hi : i ∈ is := hij.subset List.mem_cons_self
  have hsub := hij.filter fun k => k.header.trait == i.header.trait
  simp only [htrait, List.filter_cons, beq_self_eq_true, if_true, List.filter_nil] at hsub
  exact List.pairwise_iff_forall_sublist.1 (h _ (htraits i hi)) (htrait ▸ hsub)

/-- A goal without inference variables has this key, and some header is this goal. -/
def TraitTable.HasHeader (T : TraitTable) (k : Key) : Prop :=
  ∃ x : Goal, x.Definite ∧ x.key = k ∧ ∃ i ∈ T.impls, ∃ s, i.under? x = some s

/-- The header is the goal, and for each obligation there is a header with its key. -/
def Impl.MayHold (T : TraitTable) (g : Goal) (i : Impl) : Prop :=
  ∃ s, i.under? g = some s ∧ ∀ o ∈ i.obligations, T.HasHeader (o.subst s).key

/-- The header is the goal, and the obligations are derivable. -/
def Impl.Holds (T : TraitTable) (g : Goal) (i : Impl) : Prop :=
  ∃ s, i.under? g = some s ∧ ∀ o ∈ i.obligations, Derivable T (o.subst s)

section
variable {T : TraitTable} {g : Goal} {i j : Impl} {s s' : Subst}

theorem Goal.bareAll_tys_subst {h : Goal} (e : (g.subst s).bare = (h.subst s').bare) :
    Ty.bareAll (Ty.substAll s g.tys) = Ty.bareAll (Ty.substAll s' h.tys) := by
  obtain ⟨hself, -, hargs⟩ := Goal.mk.inj e
  simp only [Goal.tys, Ty.substAll, Ty.bareAll]
  exact congr (congrArg List.cons hself) hargs

theorem Goal.eq_of_bound? {o : Goal} {a : Text} {trait : Item}
    (h : o.bound? = some (a, trait)) : o = ⟨.param a, trait, []⟩ := by
  simp only [Goal.bound?] at h
  split at h
  · obtain ⟨rfl, rfl⟩ := Prod.mk.inj (Option.some.inj h)
    rfl
  · cases h

/-- An implementation is not barred where its obligations may hold. -/
theorem Impl.barred_eq_false (e : (i.header.subst s).bare = (j.header.subst s').bare)
    (hj : ∀ o ∈ j.obligations, T.HasHeader (o.subst s').key) : barred T.impls i j = false := by
  rw [barred, List.any_eq_false]
  intro o ho
  split
  · exact Bool.false_ne_true
  · rename_i a trait hbound
    obtain rfl := Goal.eq_of_bound? hbound
    simp only [List.any_eq_true, Bool.and_eq_true, beq_iff_eq, List.all_eq_true, not_exists,
      not_and]
    rintro ⟨_, u⟩ hu rfl hall
    obtain ⟨x, hx, hkey, k, hk, s'', hs''⟩ := hj _ ho
    have hput := Ty.subst_againstAll _ _ (Goal.bareAll_tys_subst e).symm hu
    have hwanted : ((Goal.mk u trait []).subst s).key = ((k.header).subst s'').key := by
      rw [Goal.key_eq_of_bare_eq (k.under?_definite hx hs'').2, hkey]
      refine Goal.key_eq_of_bare_eq ?_
      simp only [Goal.subst, Goal.bare, Ty.substAll, hput]
    exact Bool.false_ne_true ((Goal.keysDiffer_eq_false hwanted).symm.trans (hall k hk))

theorem Impl.separate_eq_false (hg : g.Definite) (hi : i.MayHold T g) (hj : j.MayHold T g) :
    separate T.impls i j = false := by
  obtain ⟨s, hs, hobi⟩ := hi
  obtain ⟨s', hs', hobj⟩ := hj
  have e : (i.header.subst s).bare = (j.header.subst s').bare :=
    (i.under?_definite hg hs).2.trans (j.under?_definite hg hs').2.symm
  have htys := Goal.bareAll_tys_subst e
  simp only [separate, Ty.clashAny_eq_false _ _ htys, Ty.conflicts_eq_false htys,
    Ty.conflicts_eq_false htys.symm, barred_eq_false e hobj, barred_eq_false e.symm hobi,
    Bool.or_self]

/-! ## What is derivable -/

theorem Derivable.hasHeader (h : Derivable T g) (hg : g.Definite) : T.HasHeader g.key := by
  obtain ⟨-, mem, applies, -⟩ := h
  exact ⟨g, hg, rfl, _, mem, _, applies⟩

namespace TraitTable.Separate

theorem obligation (hT : T.Separate) (hg : g.Definite) (hi : i ∈ T.impls)
    (hs : i.under? g = some s) {o : Goal} (ho : o ∈ i.obligations) : (o.subst s).Definite :=
  (hT.definite i hi o ho).subst (i.under?_definite hg hs).1

theorem mayHold_pairwise (hT : T.Separate) (hg : g.Definite) :
    T.impls.Pairwise fun i j => ¬(i.MayHold T g ∧ j.MayHold T g) := by
  refine hT.pairwise.imp fun {i j} hij h => ?_
  have htrait : i.header.trait = j.header.trait := by
    obtain ⟨⟨s, hs, -⟩, s', hs', -⟩ := h
    exact (Impl.under?_inv hs).1.trans (Impl.under?_inv hs').1.symm
  have hsep := hij htrait
  rw [Impl.separate_eq_false hg h.1 h.2] at hsep
  cases hsep

/-- At most one implementation answers a goal without inference variables. -/
theorem holds_pairwise (hT : T.Separate) (hg : g.Definite) :
    T.impls.Pairwise fun i j => ¬(i.Holds T g ∧ j.Holds T g) := by
  have hmay : ∀ i ∈ T.impls, i.Holds T g → i.MayHold T g := by
    rintro i hi ⟨s, hs, hobs⟩
    exact ⟨s, hs, fun o ho => (hobs o ho).hasHeader (hT.obligation hg hi hs ho)⟩
  refine (hT.mayHold_pairwise hg).imp_of_mem fun {i j} hi hj hij h => ?_
  exact hij ⟨hmay i hi h.1, hmay j hj h.2⟩

end TraitTable.Separate

/-! ## What is found -/

/-- The outcome is not ambiguous, and it is a success only where some header has the key. -/
structure TraitTable.Clear (T : TraitTable) (k : Key) (o : Outcome) : Prop where
  ne_ambiguous : o ≠ .error .ambiguous
  hasHeader : o.isOk = true → T.HasHeader k

theorem TraitTable.clear_of_error {k : Key} {e : SelectionError} (h : e ≠ .ambiguous) :
    T.Clear k (.error e) where
  ne_ambiguous := fun h' => h (Except.error.inj h')
  hasHeader := fun h' => nomatch h'

/-- Everything that is remembered is clear. -/
def TraitTable.ClearMemory (T : TraitTable) (C : Cache) : Prop := ∀ e ∈ C, T.Clear e.1 e.2

theorem TraitTable.clearMemory_nil : T.ClearMemory [] := fun _ he => nomatch he

theorem TraitTable.ClearMemory.atOnce {C : Cache} {stack : List Key} {a : Answer}
    (hC : T.ClearMemory C) (ha : atOnce? T C stack g = some a) : T.Clear g.key a.outcome := by
  rcases atOnce?_cases ha with rfl | ⟨o, hk, rfl⟩ | ⟨-, rfl⟩
  · exact clear_of_error (by decide)
  · exact hC _ (mem_of_lookup hk)
  · exact clear_of_error (by decide)

theorem TraitTable.Separate.clear_found (hT : T.Separate) (hg : g.Definite)
    {r : List Selection × Bool} (h : Found (fun o a => T.Clear o.key a.outcome) g T.impls r) :
    T.Clear g.key (unique r.1) := by
  have hmay : ∀ sel ∈ r.1, sel.impl.MayHold T g := by
    intro sel hsel
    refine ⟨_, h.applies sel hsel, fun o ho => ?_⟩
    obtain ⟨a, ha, hok⟩ := h.holds sel hsel o ho
    exact ha.hasHeader hok
  match hr : r.1 with
  | [] => exact clear_of_error (by decide)
  | [sel] =>
    have hsel : sel ∈ r.1 := by rw [hr]; exact List.mem_cons_self
    have hmem : sel.impl ∈ T.impls := h.sublist.subset (List.mem_map_of_mem hsel)
    exact ⟨fun he => (nomatch he), fun _ => ⟨g, hg, rfl, _, hmem, _, h.applies sel hsel⟩⟩
  | sel :: sel' :: rest =>
    have hpair := (hT.mayHold_pairwise hg).sublist h.sublist
    rw [hr] at hpair hmay
    refine absurd ⟨hmay sel ?_, hmay sel' ?_⟩ (List.rel_of_pairwise_cons hpair ?_) <;> simp

/-- The search keeps the memory clear and answers goals without inference variables clearly. -/
theorem TraitTable.Separate.preserved (hT : T.Separate) :
    Preserved T Goal.Definite T.ClearMemory fun g a => T.Clear g.key a.outcome where
  obligation := fun hg hi hs ho => hT.obligation hg hi hs ho
  atOnce := fun _ hC ha => hC.atOnce ha
  found := fun hg _ h => hT.clear_found hg h
  remember := fun _ hC ha _ => List.forall_mem_cons.2 ⟨ha, hC⟩

theorem TraitTable.Separate.keeps_select (hT : T.Separate) (B : Bounds) (hg : g.Definite) :
    Query.Keeps T.ClearMemory ((Solver.mk T B).select g) (· ≠ .error .ambiguous) := by
  refine (hT.preserved.keeps_select B hg).mono ?_
  rintro _ ⟨a, ha, rfl⟩
  exact ha.ne_ambiguous

/-- A history may ask about goals with inference variables and remember that they are ambiguous. If
no two goals share a key, a goal without inference variables still has the outcome that it has
without a memory. -/
theorem TraitTable.Separate.session (hT : T.Separate) {A : Goal → Prop} (hA : Faithful A)
    {reports : List Log.Event} {m m' : Memo} (h : Session T [] A ⟨[], reports⟩ m) {B : Bounds}
    {o : Outcome} (hg : g.Definite) (hasks : ∀ x, Asks T [] [] g x → A x)
    (hr : ((Solver.mk T B).select g).run m = some (o, m')) : o ≠ .error .ambiguous := by
  have hw : Select.Within T [] (UpTo A) [] g := fun x hx => upTo_self (hasks x hx)
  obtain ⟨-, p, hp, hpo⟩ :=
    (Solver.mk T B).run_select_sound hA.upTo hw (h.sound hA sound_given) hr
  have ⟨depth, a, ha, _⟩ := hp
  obtain ⟨⟨o₀, m₀⟩, hr₀⟩ :=
    (Solver.mk T ⟨depth, 0⟩).run_select_complete (m := ⟨[], []⟩) hA.upTo hw sound_given ha
  obtain ⟨-, p₀, hp₀, hpo₀⟩ :=
    (Solver.mk T ⟨depth, 0⟩).run_select_sound hA.upTo hw sound_given hr₀
  have hne : o₀ ≠ .error .ambiguous :=
    (hT.keeps_select ⟨depth, 0⟩ hg clearMemory_nil hr₀).2
  rintro rfl
  have hb : o₀.bare = .error .ambiguous := by
    rw [← hpo₀, hp₀.det hp, hpo]
    rfl
  cases o₀ with
  | ok sel => cases hb
  | error e => exact hne (congrArg Except.error (Except.error.inj hb))

end
end Mismatch
