import Mismatch.Proofs.Keys
import Mismatch.Proofs.Loops

/-!
# Tables whose obligations shrink

If all obligations have shorter keys than the goal that leads to them, then no goal can come up
again while it is solved, and a search is never deeper than the key of its goal is long. That is so
whatever is remembered (`TraitTable.Shrinks.run_solve`).
-/

namespace Mismatch

open Select

/-- The obligations have shorter keys than the goals that the implementation applies to. -/
def Impl.Shrinks (i : Impl) : Prop :=
  ∀ g s, i.under? g = some s → ∀ o ∈ i.obligations, (o.subst s).keySize < g.keySize

def TraitTable.Shrinks (T : TraitTable) : Prop := ∀ i ∈ T.impls, i.Shrinks

theorem Impl.shrinks_of_no_obligations {i : Impl} (h : i.obligations = []) : i.Shrinks := by
  intro g s _ o ho
  rw [h] at ho
  cases ho

/-- Queries that have a result on every memory. -/
def Select.Lifting.answered : Lifting Query where
  holds q R := ∀ m, ∃ a m', q.run m = some (a, m') ∧ R a
  pure h m := ⟨_, m, rfl, h⟩
  bind hx hf m := by
    obtain ⟨a, m₁, ha, hR⟩ := hx m
    obtain ⟨b, m₂, hb, hR'⟩ := hf a hR m₁
    exact ⟨b, m₂, Query.run_bind_eq_some.2 ⟨a, m₁, ha, hb⟩, hR'⟩

theorem Select.atOnce?_of_not_mem {T : TraitTable} {C : Cache} {stack : List Key} {g : Goal}
    {a : Answer} (ha : atOnce? T C stack g = some a) (hk : g.key ∉ stack) : a.metCycle = false := by
  rcases atOnce?_cases ha with rfl | ⟨_, -, rfl⟩ | ⟨hmem, -⟩
  · rfl
  · rfl
  · exact absurd hmem hk

/-- No goal with a key as short as this one's is on the stack, so that no cycle is met. -/
theorem TraitTable.Shrinks.run_solve {T : TraitTable} (hT : T.Shrinks) : ∀ (depth : Nat)
    (stack : List Key) {g : Goal}, g.keySize < depth → (∀ k ∈ stack, g.keySize < k.size) →
    Lifting.answered.holds (solve T depth stack g) fun a => a.metCycle = false
  | 0, _, _, hd, _, _ => absurd hd (Nat.not_lt_zero _)
  | depth + 1, stack, g, hd, hstack, m => by
    have hnew : g.key ∉ stack := fun hk => Nat.lt_irrefl _ (hstack _ hk)
    cases ho : atOnce? T m.cache stack g with
    | some a =>
      obtain ⟨m', hr, -⟩ := run_solve_of_atOnce depth ho
      exact ⟨a, m', hr, atOnce?_of_not_mem ho hnew⟩
    | none =>
      have hask : ∀ i ∈ T.impls, ∀ s, i.under? g = some s → ∀ o ∈ i.obligations,
          Lifting.answered.holds (solve T depth (g.key :: stack) (o.subst s))
            fun a => a.metCycle = false := by
        intro i hi s hs o ho
        have hlt := hT i hi g s hs o ho
        refine hT.run_solve depth (g.key :: stack) (by omega) fun k hk => ?_
        rcases List.mem_cons.1 hk with rfl | hk
        · exact hlt
        · exact Nat.lt_trans hlt (hstack k hk)
      obtain ⟨⟨found, met⟩, m₁, hr, hfound⟩ :=
        Lifting.answered.survivors (R := fun _ a => a.metCycle = false) hask m
      refine ⟨_, _, (run_solve_of_opens depth ho).2 ⟨found, met, m₁, hr, rfl, rfl⟩, ?_⟩
      cases met with
      | false => rfl
      | true =>
        obtain ⟨o, a, ha, hm⟩ := hfound.met rfl
        rw [ha] at hm
        cases hm

/-! ## Failures as cycles -/

/-- No failure as a cycle is remembered. -/
def Cache.Acyclic (C : Cache) : Prop := ∀ e ∈ C, e.2 ≠ .error .cycle

theorem Cache.acyclic_nil : Cache.Acyclic [] := fun _ he => nomatch he

/-- Whatever the table, a failure as a cycle is only the answer where a cycle was met, so that it is
never remembered. -/
theorem Select.preserved_acyclic (T : TraitTable) : Preserved T (fun _ => True) Cache.Acyclic
    fun _ a => a.outcome = .error .cycle → a.metCycle = true where
  obligation := fun _ _ _ _ => trivial
  atOnce := fun {g C stack a} _ hC ha ho => by
    rcases atOnce?_cases ha with rfl | ⟨o, hk, rfl⟩ | ⟨-, rfl⟩
    · cases ho
    · exact absurd ho (hC _ (mem_of_lookup hk))
    · rfl
  found := fun {g r} _ _ _ ho => by
    match hr : r.1 with
    | [] | [_] | _ :: _ :: _ =>
      rw [hr] at ho
      cases ho
  remember := fun {g a C} _ hC ha hmet =>
    List.forall_mem_cons.2 ⟨fun ho => Bool.false_ne_true (hmet.symm.trans (ha ho)), hC⟩

namespace TraitTable.Shrinks
variable {T : TraitTable} {B : Bounds} {g : Goal}

/-- Every selection comes to an end and meets no cycle, whatever is remembered. -/
theorem run_select (hT : T.Shrinks) (hd : g.keySize < B.depth) (m : Memo) :
    ∃ a m', (solve T B.depth [] g).run m = some (a, m') ∧
      ((Solver.mk T B).select g).run m = some (a.outcome, m') ∧ a.metCycle = false := by
  obtain ⟨a, m', hr, hmet⟩ := hT.run_solve B.depth [] hd (fun k hk => nomatch hk) m
  exact ⟨a, m', hr, Query.run_bind_eq_some.2 ⟨a, m', hr, rfl⟩, hmet⟩

theorem run_selects (hT : T.Shrinks) {gs : List Goal} (hd : ∀ g ∈ gs, g.keySize < B.depth)
    (m : Memo) : ∃ os m', (gs.mapM (Solver.mk T B).select).run m = some (os, m') := by
  have hsel : ∀ g ∈ gs, Lifting.answered.holds ((Solver.mk T B).select g) fun _ => True := by
    intro g hg m
    obtain ⟨a, m', -, hr, -⟩ := hT.run_select (hd g hg) m
    exact ⟨a.outcome, m', hr, trivial⟩
  obtain ⟨os, m', hr, -⟩ := Lifting.answered.mapM hsel m
  exact ⟨os, m', hr⟩

theorem keeps_select (hT : T.Shrinks) (hd : g.keySize < B.depth) :
    Query.Keeps Cache.Acyclic ((Solver.mk T B).select g) (· ≠ .error .cycle) := by
  intro m m' o hm hr
  obtain ⟨a, m₁, hs, hr', hmet⟩ := hT.run_select (B := B) hd m
  obtain ⟨rfl, rfl⟩ := Prod.mk.inj (Option.some.inj (hr'.symm.trans hr))
  obtain ⟨hm', ha⟩ := (preserved_acyclic T).keeps_solve B.depth [] trivial hm hs
  exact ⟨hm', fun ho => Bool.false_ne_true (hmet.symm.trans (ha ho))⟩

end TraitTable.Shrinks
end Mismatch
