import Mismatch.Proofs.Memo

/-!
# What the loops of a search keep

A search asks goals in turn and tries implementations in their order, with a memory or without one.
What its loops give follows from what the answers to the single goals satisfy, in whatever sense
that is said of programs: that all results satisfy a condition, that a run keeps an invariant of the
memory as well, or that there is a result on every memory. `Lifting` collects these senses, so that
the loops are gone through once (`Lifting.holdAll`, `Lifting.survivors`).
-/

namespace Mismatch.Select

/-- A sense in which the results of a program satisfy a condition. -/
structure Lifting (m : Type → Type) [Monad m] where
  holds {α : Type} : m α → (α → Prop) → Prop
  pure {α : Type} {a : α} {R : α → Prop} : R a → holds (Pure.pure a) R
  bind {α β : Type} {x : m α} {f : α → m β} {R : α → Prop} {R' : β → Prop} :
    holds x R → (∀ a, R a → holds (f a) R') → holds (x >>= f) R'

/-- What is found when implementations are tried for a goal whose obligations have answers that
satisfy `R`: the survivors stand in the order of the implementations, their headers are the goal,
and their obligations hold. A cycle was met only where an obligation met one. -/
structure Found (R : Goal → Answer → Prop) (g : Goal) (is : List Impl)
    (r : List Selection × Bool) : Prop where
  sublist : (r.1.map (·.impl)).Sublist is
  applies : ∀ sel ∈ r.1, sel.impl.under? g = some sel.subst
  holds : ∀ sel ∈ r.1, ∀ o ∈ sel.impl.obligations,
    ∃ a, R (o.subst sel.subst) a ∧ a.outcome.isOk = true
  met : r.2 = true → ∃ o a, R o a ∧ a.metCycle = true

namespace Lifting
variable {m : Type → Type} [Monad m] [LawfulMonad m] (L : Lifting m) {ask : Goal → m Answer}
  {R : Goal → Answer → Prop} {g : Goal}

theorem map {α β : Type} {x : m α} {f : α → β} {P : α → Prop} {Q : β → Prop} (h : L.holds x P)
    (hf : ∀ a, P a → Q (f a)) : L.holds (f <$> x) Q := by
  rw [map_eq_pure_bind]
  exact L.bind h fun a ha => L.pure (hf a ha)

theorem mono {α : Type} {x : m α} {P Q : α → Prop} (h : L.holds x P) (hPQ : ∀ a, P a → Q a) :
    L.holds x Q := by
  simpa only [id_map] using L.map (f := id) h hPQ

theorem mapM {α β : Type} {f : α → m β} {P : β → Prop} : ∀ {xs : List α},
    (∀ x ∈ xs, L.holds (f x) P) → L.holds (xs.mapM f) fun ys => ∀ y ∈ ys, P y
  | [], _ => by
    rw [List.mapM_nil]
    exact L.pure fun y hy => nomatch hy
  | x :: xs, h => by
    rw [List.mapM_cons]
    refine L.bind (h x List.mem_cons_self) fun y hy => ?_
    refine L.bind (mapM fun z hz => h z (List.mem_cons_of_mem x hz)) fun ys hys => ?_
    exact L.pure (List.forall_mem_cons.2 ⟨hy, hys⟩)

/-- If goals asked in turn hold, they all do. -/
theorem holdAll : ∀ {gs : List Goal}, (∀ h ∈ gs, L.holds (ask h) (R h)) →
    L.holds (Select.holdAll ask gs) fun r =>
      (r.1 = true → ∀ h ∈ gs, ∃ a, R h a ∧ a.outcome.isOk = true) ∧
      (r.2 = true → ∃ o a, R o a ∧ a.metCycle = true)
  | [], _ => L.pure ⟨fun _ h hh => (nomatch hh), fun h => (nomatch h)⟩
  | h :: gs, hask => by
    rw [holdAll_cons]
    refine L.bind (hask h List.mem_cons_self) fun a ha => ?_
    cases hok : a.outcome.isOk with
    | false => exact L.pure ⟨fun hb => (nomatch hb), fun hm => ⟨h, a, ha, hm⟩⟩
    | true =>
      refine L.map (holdAll fun x hx => hask x (List.mem_cons_of_mem h hx)) fun r hr => ⟨?_, ?_⟩
      · intro hb x hx
        rcases List.mem_cons.1 hx with rfl | hx
        · exact ⟨a, ha, hok⟩
        · exact hr.1 hb x hx
      · intro hm
        rcases Bool.or_eq_true_iff.1 hm with hm | hm
        · exact ⟨h, a, ha, hm⟩
        · exact hr.2 hm

theorem survivors : ∀ {is : List Impl},
    (∀ i ∈ is, ∀ s, i.under? g = some s → ∀ o ∈ i.obligations,
      L.holds (ask (o.subst s)) (R (o.subst s))) →
    L.holds (Select.survivors ask g is) (Found R g is)
  | [], _ => L.pure ⟨.slnil, fun sel hs => (nomatch hs), fun sel hs => (nomatch hs),
      fun h => (nomatch h)⟩
  | i :: is, hask => by
    have hask' : ∀ j ∈ is, ∀ s, j.under? g = some s → ∀ o ∈ j.obligations,
        L.holds (ask (o.subst s)) (R (o.subst s)) :=
      fun j hj => hask j (List.mem_cons_of_mem i hj)
    cases hs : i.under? g with
    | none =>
      rw [survivors_cons_of_none hs]
      exact L.mono (survivors hask') fun r hr => ⟨hr.sublist.cons i, hr.applies, hr.holds, hr.met⟩
    | some s =>
      rw [survivors_cons_of_some hs]
      have hobs : ∀ o ∈ i.obligations.map (·.subst s), L.holds (ask o) (R o) := by
        intro o ho
        obtain ⟨p, hp, rfl⟩ := List.mem_map.1 ho
        exact hask i List.mem_cons_self s hs p hp
      refine L.bind (L.holdAll hobs) fun r hr => L.map (survivors hask') fun q hq => ?_
      have hmet : (r.2 || q.2) = true → ∃ o a, R o a ∧ a.metCycle = true := fun h => by
        rcases Bool.or_eq_true_iff.1 h with h | h
        · exact hr.2 h
        · exact hq.met h
      cases hb : r.1 with
      | false => exact ⟨hq.sublist.cons i, hq.applies, hq.holds, hmet⟩
      | true =>
        refine ⟨hq.sublist.cons_cons i, ?_, ?_, hmet⟩
        · intro sel hsel
          rcases List.mem_cons.1 hsel with rfl | hsel
          · exact hs
          · exact hq.applies sel hsel
        · intro sel hsel o ho
          rcases List.mem_cons.1 hsel with rfl | hsel
          · exact hr.1 hb _ (List.mem_map_of_mem ho)
          · exact hq.holds sel hsel o ho

end Lifting

/-! ## Runs that keep an invariant -/

/-- Runs that keep an invariant of the memory. -/
def Lifting.keeping (I : Cache → Prop) : Lifting Query where
  holds := Query.Keeps I
  pure := .pure
  bind := .bind

/-- The goals in `P` lead to goals in `P`. What is remembered under the invariant `I` answers them
as `R` says, so does what is found, and an answer of which this is true may be remembered if no
cycle was met. -/
structure Preserved (T : TraitTable) (P : Goal → Prop) (I : Cache → Prop)
    (R : Goal → Answer → Prop) : Prop where
  obligation : ∀ {g : Goal} {i : Impl} {s : Subst} {o : Goal}, P g → i ∈ T.impls →
    i.under? g = some s → o ∈ i.obligations → P (o.subst s)
  atOnce : ∀ {g : Goal} {C : Cache} {stack : List Key} {a : Answer}, P g → I C →
    atOnce? T C stack g = some a → R g a
  found : ∀ {g : Goal} {r : List Selection × Bool}, P g → T.trait? g.trait ≠ none →
    Found R g T.impls r → R g ⟨unique r.1, r.2⟩
  remember : ∀ {g : Goal} {a : Answer} {C : Cache}, P g → I C → R g a → a.metCycle = false →
    I ((g.key, a.outcome) :: C)

/-- The search keeps such an invariant, and answers the goals as it says. -/
theorem Preserved.keeps_solve {T : TraitTable} {P : Goal → Prop} {I : Cache → Prop}
    {R : Goal → Answer → Prop} (h : Preserved T P I R) : ∀ (depth : Nat) (stack : List Key)
    {g : Goal}, P g → Query.Keeps I (solve T depth stack g) (R g)
  | 0, _, _, _, _, _, _, _, hr => nomatch hr
  | depth + 1, stack, g, hg, m, m', a, hm, hr => by
    cases ho : atOnce? T m.cache stack g with
    | some c =>
      obtain ⟨m'', hr', hcache⟩ := run_solve_of_atOnce depth ho
      obtain ⟨rfl, rfl⟩ := Prod.mk.inj (Option.some.inj (hr'.symm.trans hr))
      exact ⟨hcache ▸ hm, h.atOnce hg hm ho⟩
    | none =>
      obtain ⟨known, -, -⟩ := atOnce?_eq_none_iff.1 ho
      obtain ⟨found, met, m₁, hr₁, rfl, rfl⟩ := (run_solve_of_opens depth ho).1 hr
      obtain ⟨hm₁, hfound⟩ := (Lifting.keeping I).survivors (R := R)
        (fun i hi s hs o ho => h.keeps_solve depth (g.key :: stack) (h.obligation hg hi hs ho))
        hm hr₁
      have ha := h.found hg known hfound
      refine ⟨?_, ha⟩
      cases met with
      | true => exact hm₁
      | false => exact h.remember hg hm₁ ha rfl

theorem Preserved.keeps_select {T : TraitTable} {P : Goal → Prop} {I : Cache → Prop}
    {R : Goal → Answer → Prop} (h : Preserved T P I R) (B : Bounds) {g : Goal} (hg : P g) :
    Query.Keeps I ((Solver.mk T B).select g) fun o => ∃ a, R g a ∧ a.outcome = o :=
  (Lifting.keeping I).bind (h.keeps_solve B.depth [] hg) fun a ha => .pure ⟨a, ha, rfl⟩

end Mismatch.Select
