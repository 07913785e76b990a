import Mathlib.Data.Finset.Card
import Mathlib.Data.Set.Finite.Lattice
import Mathlib.Data.Set.Finite.List
import Mismatch.Proofs.Agree
import Mismatch.Proofs.Keys
import Mismatch.Proofs.Session

/-!
# When searches come to an end

A goal on the stack is not searched for again, so that the stack never holds more goals than come up
in a search: where their keys are finitely many, the search comes to an end (`searchFrom_total`).
Conversely only finitely many goals come up in a search that ends (`finite_asks`).

An obligation may be larger than the goal that leads to it. Hence the goals that come up need not be
finitely many, and a chain of dereferences need not come to an end (`Solver.coercions_endless`),
although its own length is bounded. It does exactly if finitely many keys come up in the searches
for its targets (`Session.coercions_terminate`).
-/

namespace Mismatch

namespace Select

/-! ## Loops that come to an end -/

section
variable {ask : Goal → Option Answer}

theorem holdAll_total : ∀ {gs : List Goal}, (∀ x, InTurn ask gs x → ∃ a, ask x = some a) →
    ∃ r, holdAll ask gs = some r
  | [], _ => ⟨_, rfl⟩
  | g :: gs, h => by
    obtain ⟨a, ha⟩ := h g .head
    cases hok : a.outcome.isOk with
    | false => exact ⟨_, holdAll_cons_eq_some.2 ⟨a, ha, .inl ⟨hok, rfl, rfl⟩⟩⟩
    | true =>
      obtain ⟨⟨b, later⟩, hgs⟩ := holdAll_total fun x hx => h x (hx.tail ha hok)
      exact ⟨_, holdAll_cons_eq_some.2 ⟨a, ha, .inr ⟨hok, later, hgs, rfl⟩⟩⟩

theorem survivors_total {goal : Goal} : ∀ {is : List Impl},
    (∀ x, Tried ask goal is x → ∃ a, ask x = some a) → ∃ r, survivors ask goal is = some r
  | [], _ => ⟨_, rfl⟩
  | i :: is, h => by
    obtain ⟨r, hr⟩ : ∃ r, survivors ask goal is = some r :=
      survivors_total fun x ⟨j, hj, hx⟩ => h x ⟨j, List.mem_cons_of_mem i hj, hx⟩
    cases hi : i.under? goal with
    | none => exact ⟨r, by rw [survivors_cons_of_none hi, hr]⟩
    | some s =>
      obtain ⟨⟨b, met⟩, hq⟩ := holdAll_total fun x hx => h x ⟨i, List.mem_cons_self, s, hi, hx⟩
      exact ⟨_, (survivors_cons_eq_some hi).2 ⟨b, met, r, hq, hr, rfl⟩⟩

end

/-! ## Finitely many goals -/

variable {T : TraitTable} {given : Cache} {stack : List Key} {g : Goal}

/-- A search comes to an end before it is deeper than there are keys that may yet be put on the
stack. -/
theorem searchFrom_total {K : Finset Key} : ∀ {depth : Nat} {stack : List Key} {g : Goal},
    (∀ x, Asks T given stack g x → x.key ∈ K) → (K \ stack.toFinset).card < depth →
    ∃ a, searchFrom T given depth stack g = some a
  | 0, _, _, _, hd => absurd hd (Nat.not_lt_zero _)
  | depth + 1, stack, g, hK, hd => by
    cases ho : atOnce? T given stack g with
    | some a => exact ⟨a, searchFrom_of_atOnce depth ho⟩
    | none =>
      obtain ⟨-, -, hk⟩ := atOnce?_eq_none_iff.1 ho
      -- The key of the goal is one fewer that may yet be put on the stack.
      have hlt : (K \ (g.key :: stack).toFinset).card < (K \ stack.toFinset).card := by
        refine Finset.card_lt_card (Finset.ssubset_iff_subset_ne.2 ⟨?_, fun he => ?_⟩)
        · intro k hk
          simp only [List.toFinset_cons, Finset.mem_sdiff, Finset.mem_insert, not_or] at hk ⊢
          exact ⟨hk.1, hk.2.2⟩
        · have hmem : g.key ∈ K \ stack.toFinset := by simp [hK g .self, hk]
          rw [← he] at hmem
          simp at hmem
      obtain ⟨r, hr⟩ : ∃ r, survivors (searchFrom T given depth (g.key :: stack)) g T.impls =
          some r :=
        survivors_total fun x hx =>
          searchFrom_total (fun y hy => hK y (.of_tried ho hx hy)) (by omega)
      exact ⟨_, searchFrom_of_opens ho hr⟩

/-- The goals that come up by way of one obligation, if that is asked. -/
theorem finite_asks_obligation {d : Nat} {r : List Selection × Bool}
    (hr : survivors (searchFrom T given d (g.key :: stack)) g T.impls = some r)
    (ih : ∀ {o : Goal} {a : Answer}, searchFrom T given d (g.key :: stack) o = some a →
      {x | Asks T given (g.key :: stack) o x}.Finite) {i : Impl} (mem : i ∈ T.impls) (o : Goal) :
    {x | ∃ s before after, i.under? g = some s ∧ i.obligations = before ++ o :: after ∧
      (∀ p ∈ before, ∃ sel, Answers T given (g.key :: stack) (p.subst s) (.ok sel)) ∧
      Asks T given (g.key :: stack) (o.subst s) x}.Finite := by
  by_cases hasked : ∃ s before after, i.under? g = some s ∧ i.obligations = before ++ o :: after ∧
      ∀ p ∈ before, ∃ sel, Answers T given (g.key :: stack) (p.subst s) (.ok sel)
  · obtain ⟨s, before, after, applies, split, holds⟩ := hasked
    obtain ⟨b, met, hq, -⟩ := survivors_answered applies hr mem
    rw [split, List.map_append, List.map_cons] at hq
    obtain ⟨a, ha, -⟩ := holdAll_answered hq _ _ _ rfl fun p hp c hc => by
      obtain ⟨p', hp', rfl⟩ := List.mem_map.1 hp
      obtain ⟨sel, d', c', hc', hsel⟩ := holds p' hp'
      rw [searchFrom_det hc hc']
      exact exists_ok_iff.1 ⟨sel, hsel⟩
    refine (ih ha).subset fun x hx => ?_
    obtain ⟨s', -, -, applies', -, -, hx⟩ := hx
    obtain rfl := Option.some.inj (applies.symm.trans applies')
    exact hx
  · refine Set.finite_empty.subset fun x hx => hasked ?_
    obtain ⟨s, before, after, applies, split, holds, -⟩ := hx
    exact ⟨s, before, after, applies, split, holds⟩

/-- Only finitely many goals come up in a search that comes to an end. -/
theorem finite_asks : ∀ {depth : Nat} {stack : List Key} {g : Goal} {a : Answer},
    searchFrom T given depth stack g = some a → {x | Asks T given stack g x}.Finite
  | 0, _, _, _, ha => nomatch ha
  | depth + 1, stack, g, a, ha => by
    cases ho : atOnce? T given stack g with
    | some c =>
      refine (Set.finite_singleton g).subset fun x hx => ?_
      cases hx with
      | self => rfl
      | obligation opens => rw [ho] at opens; cases opens
    | none =>
      obtain ⟨d, r, hd, hr, -⟩ := searchFrom_opens_inv ho ha
      obtain rfl := Nat.succ.inj hd
      refine ((Set.finite_singleton g).union (Set.Finite.biUnion (List.finite_toSet T.impls)
        fun i hi => Set.Finite.biUnion (List.finite_toSet i.obligations)
          fun o _ => finite_asks_obligation hr finite_asks hi o)).subset fun x hx => ?_
      cases hx with
      | self => exact .inl rfl
      | @obligation _ _ i s before after o _ opens mem applies split holds asked =>
        have hmem : o ∈ i.obligations := by rw [split]; simp
        exact .inr (Set.mem_biUnion mem (Set.mem_biUnion hmem
          ⟨s, before, after, applies, split, holds, asked⟩))

end Select

open Select

/-! ## Chains of dereferences -/

/-- The types whose dereference a chain asks for: `last` and those after it, at most `room` of them
and none that is equivalent to one in `seen`. -/
inductive Visits (T : TraitTable) (given : Cache) : Nat → List Ty → Ty → Ty → Prop
  | here {room : Nat} {seen : List Ty} {last : Ty} : Visits T given room seen last last
  | next {room : Nat} {seen : List Ty} {last v u : Ty} (leads : Leads T given last v)
      (new : seen.any (·.equiv v) = false) (visits : Visits T given room (v :: seen) v u) :
      Visits T given (room + 1) seen last u

/-- The goal is asked for the dereference of one of these types. -/
def Visits.Goals (T : TraitTable) (given : Cache) (room : Nat) (seen : List Ty) (last : Ty)
    (g : Goal) : Prop :=
  ∃ u, Visits T given room seen last u ∧ T.derefGoal? u = some g ∧ T.Declares g.trait "Target"

theorem Visits.Goals.next {T : TraitTable} {given : Cache} {room : Nat} {seen : List Ty}
    {last v : Ty} {g : Goal} (leads : Leads T given last v) (new : seen.any (·.equiv v) = false)
    (hg : Goals T given room (v :: seen) v g) : Goals T given (room + 1) seen last g := by
  obtain ⟨u, hu, h⟩ := hg
  exact ⟨u, .next leads new hu, h⟩

/-- The goals that come up in the searches for a chain of at most `bound` types. -/
def ChainGoals (T : TraitTable) (given : Cache) (bound : Nat) (t : Ty) : Set Goal :=
  {x | ∃ g, Visits.Goals T given (bound - 1) [t] t g ∧ Asks T given [] g x}

theorem Visits.reaches {T : TraitTable} {given : Cache} {room : Nat} {seen : List Ty}
    {t last u : Ty} (h : Visits T given room seen last u) {n : Nat}
    (hl : Reaches T given t n last) : ∃ k ≤ n + room, Reaches T given t k u := by
  induction h generalizing n with
  | here => exact ⟨n, by omega, hl⟩
  | next leads _ _ ih =>
    obtain ⟨k, hk, hu⟩ := ih (hl.step leads)
    exact ⟨k, by omega, hu⟩

theorem Visits.finite {T : TraitTable} {given : Cache} {room : Nat} {t : Ty} :
    {u | Visits T given room [t] t u}.Finite := by
  refine (Set.Finite.biUnion (Set.finite_le_nat (0 + room)) fun k _ =>
    Set.Subsingleton.finite (s := {u | Reaches T given t k u}) fun u hu v hv =>
      Reaches.det hu hv).subset fun u hu => ?_
  obtain ⟨k, hk, h⟩ := hu.reaches .start
  exact Set.mem_biUnion hk h

namespace Solver
variable {S : Solver} {given : Cache} {A : Goal → Prop} {g h : Goal} {t u v last : Ty}
  {m m' : Memo}

/-- A projection that is answered has an outcome without a memory, if it searches for one. -/
theorem answers_of_run_project (hA : Faithful A) (hw : Within S.table given A [] g)
    (hs : Sound S.table given A m.cache) (hd : S.table.Declares g.trait "Target")
    {r : Except SelectionError Ty × Memo} (hr : (S.project g "Target").run m = some r) :
    ∃ o, Answers S.table given [] g o := by
  obtain ⟨p, m₁⟩ := r
  rw [project_of_declares hd, Query.run_map_eq_some] at hr
  obtain ⟨o, ho, -⟩ := hr
  obtain ⟨-, p, hp, -⟩ := run_select_sound hA hw hs ho
  exact ⟨p, hp⟩

/-- A projection is answered if the search without a memory comes to an end in the same depth. -/
theorem run_project_of_search (hA : Faithful A) (hw : Within S.table given A [] g)
    (hs : Sound S.table given A m.cache)
    (ha : S.table.Declares g.trait "Target" →
      ∃ a, searchFrom S.table given S.bounds.depth [] g = some a) :
    ∃ r, (S.project g "Target").run m = some r := by
  by_cases hd : S.table.Declares g.trait "Target"
  · obtain ⟨a, ha⟩ := ha hd
    obtain ⟨⟨o, m₁⟩, ho⟩ := run_select_complete hA hw hs ha
    rw [project_of_declares hd]
    exact ⟨_, Query.run_map_eq_some.2 ⟨o, ho, rfl⟩⟩
  · rw [project_of_not_declares hd]
    exact ⟨_, rfl⟩

/-- A dereference that leads somewhere without a memory leads to an equivalent type with one. -/
theorem run_derefTarget_of_leads (hA : Faithful A) (hc : Closed A) (e : u.bare = last.bare)
    (hw : ∀ g, S.table.derefGoal? u = some g → S.table.Declares g.trait "Target" →
      Within S.table given A [] g)
    (hs : Sound S.table given A m.cache) {r : Option Ty}
    (hr : (S.derefTarget last).run m = some (r, m')) (hv : Leads S.table given u v) :
    ∃ next, r = some next ∧ v.bare = next.bare := by
  cases hv with
  | ref n =>
    obtain ⟨next, rfl, hn⟩ := Ty.eq_ref_of_bare_eq e.symm
    obtain ⟨rfl, rfl⟩ := Prod.mk.inj (Option.some.inj hr)
    exact ⟨next, rfl, hn.symm⟩
  | @target _ _ g asks projects =>
    obtain ⟨h, hh, egh⟩ := derefGoal?_of_bare_eq e asks
    obtain ⟨depth, hset⟩ := project_settles hA hc (hw g asks projects.1) projects
    rw [derefTarget_of_goal hh, Query.run_map_eq_some] at hr
    obtain ⟨p, hp, rfl⟩ := hr
    obtain ⟨next, rfl, hn⟩ := (hset h egh).holds (d := S.bounds.depth) hs hp
    exact ⟨next, rfl, hn.symm⟩

/-! ### A chain that is answered -/

/-- In a chain that is answered, the search for each dereference has come to an end. -/
theorem answers_of_run_derefsAfter (hA : Faithful A) (hc : Closed A) {start : Ty} {room : Nat}
    {seen : List Ty} (h : Visits S.table given room seen u v) :
    (∀ g, Visits.Goals S.table given room seen u g → Within S.table given A [] g) →
    S.table.derefGoal? v = some g → S.table.Declares g.trait "Target" →
    ∀ {seen' : List Ty} {last : Ty} {m m' : Memo} {chain : List Ty},
    u.bare = last.bare → seen'.map Ty.bare = seen.map Ty.bare → Sound S.table given A m.cache →
    (S.derefsAfter start room seen' last).run m = some (chain, m') →
    ∃ o, Answers S.table given [] g o := by
  induction h with
  | here =>
    intro hw hg hd seen' last m m' chain e es hs hr
    obtain ⟨h, hh, egh⟩ := derefGoal?_of_bare_eq e hg
    rw [derefsAfter_eq, derefTarget_of_goal hh, Query.run_bind_eq_some] at hr
    obtain ⟨r, m₁, hr, -⟩ := hr
    obtain ⟨p, hp, -⟩ := Query.run_map_eq_some.1 hr
    have hwh : Within S.table given A [] h := (hw g ⟨_, .here, hg, hd⟩).congr hc egh
    obtain ⟨o, ho⟩ := answers_of_run_project hA hwh hs (Goal.trait_eq_of_bare_eq egh ▸ hd) hp
    obtain ⟨o', ho', -⟩ := ho.congr egh.symm
    exact ⟨o', ho'⟩
  | @next room seen u w v leads new visits ih =>
    intro hw hg hd seen' last m m' chain e es hs hr
    have hwu : ∀ h, S.table.derefGoal? u = some h → S.table.Declares h.trait "Target" →
        Within S.table given A [] h := fun h hh hd => hw h ⟨u, .here, hh, hd⟩
    rw [derefsAfter_eq, Query.run_bind_eq_some] at hr
    obtain ⟨r, m₁, hr₁, hr⟩ := hr
    obtain ⟨next, rfl, hn⟩ := run_derefTarget_of_leads hA hc e hwu hs hr₁ leads
    obtain ⟨-, d, hset⟩ := run_derefTarget_settles hA hc e hwu hs hr₁
    have hs₁ := (hset last e).sound (d := S.bounds.depth) hs hr₁
    have hends : chainEnds seen' (room + 1) (some next) = false := by
      have hseen : seen'.any (·.equiv next) = false := by rw [any_equiv_congr es hn.symm, new]
      simp [chainEnds, hseen]
    obtain ⟨next', room', he, hroom, hgo⟩ := goOn_of_not_ends (S := S) start hends
    obtain rfl := Option.some.inj he
    obtain rfl := Nat.succ.inj hroom
    rw [hgo, Query.run_map_eq_some] at hr
    obtain ⟨rest, hrest, -⟩ := hr
    refine ih (fun h hh => hw h (hh.next leads new)) hg hd hn ?_ hs₁ hrest
    rw [List.map_cons, List.map_cons, es, hn]

/-! ### A chain whose searches come to an end -/

/-- A chain is answered in a depth that is greater than the number of keys that come up. -/
theorem run_derefsAfter_total (hA : Faithful A) (hc : Closed A) {K : Finset Key}
    (hK : K.card < S.bounds.depth) {start : Ty} : ∀ {room : Nat} {seen seen' : List Ty}
    {u last : Ty} {m : Memo},
    (∀ g, Visits.Goals S.table given room seen u g → Within S.table given A [] g) →
    (∀ g x, Visits.Goals S.table given room seen u g → Asks S.table given [] g x → x.key ∈ K) →
    u.bare = last.bare → seen'.map Ty.bare = seen.map Ty.bare → Sound S.table given A m.cache →
    ∃ r, (S.derefsAfter start room seen' last).run m = some r := by
  intro room seen seen' u last m hw hkeys e es hs
  have hwu : ∀ h, S.table.derefGoal? u = some h → S.table.Declares h.trait "Target" →
      Within S.table given A [] h := fun h hh hd => hw h ⟨u, .here, hh, hd⟩
  have hderef : ∃ r, (S.derefTarget last).run m = some r := by
    cases hl : S.table.derefGoal? last with
    | none =>
      rcases derefTarget_of_none hl with ⟨n, v, -, h⟩ | h
      · exact ⟨_, by rw [h]; rfl⟩
      · exact ⟨_, by rw [h]; rfl⟩
    | some h =>
      obtain ⟨g, hg, ehg⟩ := derefGoal?_of_bare_eq e.symm hl
      have hgoals : S.table.Declares h.trait "Target" → Visits.Goals S.table given room seen u g :=
        fun hd => ⟨u, .here, hg, Goal.trait_eq_of_bare_eq ehg ▸ hd⟩
      rw [derefTarget_of_goal hl]
      by_cases hd : S.table.Declares h.trait "Target"
      · have hwg := hw g (hgoals hd)
        obtain ⟨a, ha⟩ :=
          searchFrom_total (fun x hx => hkeys g x (hgoals hd) hx) (by simpa using hK)
        obtain ⟨b, hb, -⟩ := searchFrom_of_bare_eq ehg.symm ha
        obtain ⟨⟨p, m₁⟩, hp⟩ :=
          run_project_of_search hA (hwg.congr hc ehg.symm) hs fun _ => ⟨b, hb⟩
        exact ⟨_, Query.run_map_eq_some.2 ⟨p, hp, rfl⟩⟩
      · rw [project_of_not_declares hd]
        exact ⟨_, rfl⟩
  obtain ⟨⟨r, m₁⟩, hr⟩ := hderef
  obtain ⟨hleads, d, hset⟩ := run_derefTarget_settles hA hc e hwu hs hr
  have hs₁ := (hset last e).sound (d := S.bounds.depth) hs hr
  rw [derefsAfter_eq]
  cases hends : chainEnds seen' room r with
  | true =>
    obtain ⟨reports, h⟩ := run_goOn_of_ends (S := S) start hends m₁
    exact ⟨_, Query.run_bind_eq_some.2 ⟨r, m₁, hr, h⟩⟩
  | false =>
    obtain ⟨next, room', rfl, rfl, hgo⟩ := goOn_of_not_ends (S := S) start hends
    obtain ⟨v, hv, hvn⟩ := hleads next rfl
    have hseen : seen'.any (·.equiv next) = false := by
      simpa [chainEnds] using hends
    have new : seen.any (·.equiv v) = false := by
      rw [← any_equiv_congr es hvn.symm, hseen]
    obtain ⟨⟨rest, m₂⟩, hrest⟩ :
        ∃ r, (S.derefsAfter start room' (next :: seen') next).run m₁ = some r :=
      run_derefsAfter_total hA hc hK (fun g hg => hw g (hg.next hv new))
        (fun g y hg => hkeys g y (hg.next hv new)) hvn
        (by rw [List.map_cons, List.map_cons, es, hvn]) hs₁
    refine ⟨(next :: rest, m₂), Query.run_bind_eq_some.2 ⟨_, m₁, hr, ?_⟩⟩
    rw [hgo, Query.run_map_eq_some]
    exact ⟨rest, hrest, rfl⟩
termination_by room => room

/-! ### Coercions -/

theorem answered_coercions_iff : (∃ r, (S.coercions t).run m = some r) ↔
    ∃ r, (S.derefsAfter t (S.chainBound - 1) [t] t).run m = some r := by
  by_cases ht : t = .missing
  · subst ht
    refine ⟨fun _ => ?_, fun _ => ⟨_, rfl⟩⟩
    rw [derefsAfter_eq]
    exact ⟨_, rfl⟩
  · rw [coercions_of_ne_missing ht]
    constructor
    · rintro ⟨⟨chain, m'⟩, hr⟩
      obtain ⟨rest, m₁, hrest, -⟩ := Query.run_bind_eq_some.1 hr
      exact ⟨_, hrest⟩
    · rintro ⟨⟨rest, m₁⟩, hrest⟩
      exact ⟨_, Query.run_bind_eq_some.2 ⟨rest, m₁, hrest, rfl⟩⟩

/-- If coercions are answered, only finitely many goals come up in the searches for them. -/
theorem finite_chainGoals (hA : Faithful A) (hc : Closed A)
    (hw : ∀ x ∈ ChainGoals S.table given S.chainBound t, A x) (hs : Sound S.table given A m.cache)
    {r : List Ty × Memo} (hr : (S.coercions t).run m = some r) :
    (ChainGoals S.table given S.chainBound t).Finite := by
  obtain ⟨⟨chain, m'⟩, hchain⟩ := answered_coercions_iff.1 ⟨r, hr⟩
  have hgoals : ∀ u, Visits S.table given (S.chainBound - 1) [t] t u →
      {x | ∃ g, S.table.derefGoal? u = some g ∧ S.table.Declares g.trait "Target" ∧
        Asks S.table given [] g x}.Finite := fun u hu => by
    by_cases hg : ∃ g, S.table.derefGoal? u = some g ∧ S.table.Declares g.trait "Target"
    · obtain ⟨g, hg, hd⟩ := hg
      obtain ⟨o, depth, a, ha, -⟩ := answers_of_run_derefsAfter hA hc hu
        (fun h hh x hx => hw x ⟨h, hh, hx⟩) hg hd rfl rfl hs hchain
      refine (finite_asks ha).subset fun x hx => ?_
      obtain ⟨h, hh, -, hx⟩ := hx
      obtain rfl := Option.some.inj (hg.symm.trans hh)
      exact hx
    · refine Set.finite_empty.subset fun x hx => hg ?_
      obtain ⟨g, hg, hd, -⟩ := hx
      exact ⟨g, hg, hd⟩
  refine (Set.Finite.biUnion Visits.finite hgoals).subset fun x hx => ?_
  obtain ⟨g, ⟨u, hu, hg, hd⟩, hx⟩ := hx
  exact Set.mem_biUnion hu ⟨g, hg, hd, hx⟩

end Solver

/-- After any history of queries, the chain of a type comes to an end if and only if only finitely
many keys come up in the searches for it without a memory. It then does so in every depth that is
greater than their number. -/
theorem Session.coercions_terminate {T : TraitTable} {A : Goal → Prop} {reports : List Log.Event}
    {m : Memo} {t : Ty} {maxDeref : Nat} (hA : Faithful A) (h : Session T [] A ⟨[], reports⟩ m)
    (hw : ∀ x ∈ ChainGoals T [] (max maxDeref 1) t, A x) :
    ((∃ depth r, ((Solver.mk T ⟨depth, maxDeref⟩).coercions t).run m = some r) ↔
      (Goal.key '' ChainGoals T [] (max maxDeref 1) t).Finite) ∧
    ∀ K : Finset Key, (∀ x ∈ ChainGoals T [] (max maxDeref 1) t, x.key ∈ K) → ∀ depth > K.card,
      ∃ r, ((Solver.mk T ⟨depth, maxDeref⟩).coercions t).run m = some r := by
  have hs : Sound T [] (UpTo A) m.cache := h.sound hA sound_given
  have hw' : ∀ x ∈ ChainGoals T [] (max maxDeref 1) t, UpTo A x := fun x hx => upTo_self (hw x hx)
  have hends : ∀ K : Finset Key, (∀ x ∈ ChainGoals T [] (max maxDeref 1) t, x.key ∈ K) →
      ∀ depth > K.card, ∃ r, ((Solver.mk T ⟨depth, maxDeref⟩).coercions t).run m = some r := by
    intro K hK depth hd
    refine Solver.answered_coercions_iff.2 ?_
    exact Solver.run_derefsAfter_total (S := ⟨T, ⟨depth, maxDeref⟩⟩) hA.upTo closed_upTo hd
      (fun g hg x hx => hw' x ⟨g, hg, hx⟩) (fun g x hg hx => hK x ⟨g, hg, hx⟩) rfl rfl hs
  refine ⟨⟨?_, fun hf => ?_⟩, hends⟩
  · rintro ⟨depth, r, hr⟩
    exact (Solver.finite_chainGoals (S := ⟨T, ⟨depth, maxDeref⟩⟩) hA.upTo closed_upTo hw' hs
      hr).image _
  · refine ⟨_, hends hf.toFinset (fun x hx => ?_) _ (Nat.lt_succ_self _)⟩
    exact hf.mem_toFinset.2 (Set.mem_image_of_mem _ hx)

/-- The chain of a box needs no greater depth than the number of keys that come up. -/
theorem Session.coercions_terminate_box : ∃ m, ∃ K : Finset Key,
    Session Sample.table [] (Listed Sample.goals) ⟨[], []⟩ m ∧ m.cache.length = 2 ∧
    (∀ x ∈ ChainGoals Sample.table [] (max 9 1) (Sample.box .bool), x.key ∈ K) ∧
    ∃ r, ((Solver.mk Sample.table ⟨K.card + 1, 9⟩).coercions (Sample.box .bool)).run m =
      some r := by
  have hbox : (Ask.select ⟨Sample.box .bool, Sample.marker, []⟩).Within Sample.solver []
      (Listed Sample.goals) :=
    .listed Sample.closes_goals fun g hg =>
      Sample.listed (by simp [show g = _ from hg, Sample.goals])
  have h₁ : Session Sample.table [] (Listed Sample.goals) ⟨[], []⟩ _ :=
    .ask _ Sample.solver.bounds .refl hbox rfl
  have hw : ∀ x ∈ ChainGoals Sample.table [] (max 9 1) (Sample.box .bool),
      Listed Sample.goals x := by
    rintro x ⟨g, ⟨u, hu, hg, -⟩, hx⟩
    refine hx.listed Sample.closes_goals ?_
    obtain ⟨k, -, hk⟩ := hu.reaches (n := 0) .start
    rcases Sample.reaches_box hk with rfl | rfl
    · obtain rfl := Option.some.inj hg
      exact Sample.listed (by simp [Sample.goals])
    · obtain rfl := Option.some.inj hg
      exact Sample.listed (by simp [Sample.goals])
  have hK : ∀ x ∈ ChainGoals Sample.table [] (max 9 1) (Sample.box .bool),
      x.key ∈ (Sample.goals.map Goal.key).toFinset := fun x hx => by
    obtain ⟨y, hy, e⟩ := hw x hx
    rw [List.mem_toFinset, ← Goal.key_eq_of_bare_eq e]
    exact List.mem_map_of_mem hy
  refine ⟨_, _, h₁, rfl, hK, ?_⟩
  exact (Session.coercions_terminate Sample.faithful_goals h₁ hw).2 _ hK _ (Nat.lt_succ_self _)

/-! ## A search that does not come to an end -/

namespace Sample

/-- Every type dereferences to itself if its box dereferences. -/
def growing : TraitTable where
  traits := [⟨deref, [], [("Target" : Text)]⟩]
  impls := [⟨[[84]], ⟨param, deref, []⟩, [("Target", param)], [⟨box param, deref, []⟩]⟩]
  known := { KnownItems.none with derefTrait := some deref }

theorem keySize_lt_box (t : Ty) :
    Goal.keySize ⟨t, deref, []⟩ < Goal.keySize ⟨box t, deref, []⟩ :=
  Goal.keySize_lt (Nat.add_lt_add_right (Ty.length_key_adt _ List.mem_cons_self) _) []

/-- The goal leads to that for the box, whose key is longer than all on the stack. -/
theorem solve_growing : ∀ (depth : Nat) {stack : List Key} {m : Memo} {t : Ty}, t ≠ .missing →
    m.cache = [] → (∀ k ∈ stack, k.size < Goal.keySize ⟨t, deref, []⟩) →
    (solve growing depth stack ⟨t, deref, []⟩).run m = none
  | 0, _, _, _, _, _, _ => rfl
  | depth + 1, stack, m, t, ht, hm, hstack => by
    have hnew : Goal.key ⟨t, deref, []⟩ ∉ stack := fun hk => Nat.lt_irrefl _ (hstack _ hk)
    have opens : atOnce? growing m.cache stack ⟨t, deref, []⟩ = none :=
      atOnce?_eq_none_iff.2 ⟨nofun, by rw [hm]; rfl, hnew⟩
    have applies : Impl.under? ⟨[[84]], ⟨param, deref, []⟩, [("Target", param)],
        [⟨box param, deref, []⟩]⟩ ⟨t, deref, []⟩ = some [([84], t)] := by
      cases t <;> first | rfl | exact absurd rfl ht
    have hbox : (solve growing depth (Goal.key ⟨t, deref, []⟩ :: stack) ⟨box t, deref, []⟩).run m =
        none := solve_growing depth nofun hm fun k hk => by
      rcases List.mem_cons.1 hk with rfl | hk
      · exact keySize_lt_box t
      · exact (hstack k hk).trans (keySize_lt_box t)
    refine Option.eq_none_iff_forall_ne_some.2 fun r hr => ?_
    obtain ⟨found, met, m₁, hr, -⟩ := (run_solve_of_opens depth opens).1 hr
    rw [growing, survivors_cons_of_some applies, Query.run_bind_eq_some] at hr
    obtain ⟨b, m₂, hr, -⟩ := hr
    rw [List.map_singleton, holdAll_cons, Query.run_bind_eq_some] at hr
    obtain ⟨a, m₃, hr, -⟩ := hr
    nomatch hbox.symm.trans hr

end Sample

/-- No depth is enough for the chain of a type that dereferences if its box does, although there is
one implementation and the chain has at most `maxDeref` types. -/
theorem Solver.coercions_endless :
    ¬ ∃ B r, ((Solver.mk Sample.growing B).coercions .bool).run ⟨[], []⟩ = some r := by
  rintro ⟨B, r, hr⟩
  obtain ⟨⟨chain, m₁⟩, hr⟩ := answered_coercions_iff.1 ⟨r, hr⟩
  rw [derefsAfter_eq, Query.run_bind_eq_some] at hr
  obtain ⟨u, m₂, hr, -⟩ := hr
  rw [derefTarget_of_goal (g := ⟨.bool, Sample.deref, []⟩) rfl, Query.run_map_eq_some] at hr
  obtain ⟨p, hr, -⟩ := hr
  rw [project_of_declares ⟨_, rfl, rfl⟩, Query.run_map_eq_some] at hr
  obtain ⟨o, hr, -⟩ := hr
  obtain ⟨a, hr, -⟩ := run_select_eq_some.1 hr
  have hnone : (solve Sample.growing B.depth [] ⟨.bool, Sample.deref, []⟩).run ⟨[], []⟩ = none :=
    Sample.solve_growing B.depth (fun h => nomatch h) rfl (fun k hk => nomatch hk)
  nomatch hnone.symm.trans hr

end Mismatch
