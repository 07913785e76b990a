import Mismatch.Proofs.Memo

/-!
# Searches that agree

A search that meets no cycle goes the same way under fewer goals (`searchFrom_anti`, `Asks.anti`),
and a search goes the same way in two tables with the same implementations if these agree on which
of the traits that come up are declared (`searchFrom_agree`). Hence an answer that is settled stays
so when a trait is declared that does not come up in its search (`Settled.agree`).
-/

namespace Mismatch.Select

/-! ## Goals that were asked -/

section
variable {ask : Goal → Option Answer}

/-- Goals that were asked have an answer, and if no cycle was met, theirs met none. -/
theorem holdAll_answered : ∀ {gs : List Goal} {b met : Bool}, holdAll ask gs = some (b, met) →
    ∀ before g after, gs = before ++ g :: after →
      (∀ p ∈ before, ∀ a, ask p = some a → a.outcome.isOk = true) →
      ∃ a, ask g = some a ∧ (met = false → a.metCycle = false)
  | [], _, _, _, before, _, _, hsplit, _ => by simp at hsplit
  | h :: gs, b, met, hr, before, g, after, hsplit, hb => by
    obtain ⟨a, ha, hr⟩ := holdAll_cons_eq_some.1 hr
    cases before with
    | nil =>
      obtain ⟨rfl, rfl⟩ := List.cons.inj hsplit
      refine ⟨a, ha, fun hm => ?_⟩
      rcases hr with ⟨-, -, rfl⟩ | ⟨-, later, -, rfl⟩
      · exact hm
      · exact (Bool.or_eq_false_iff.1 hm).1
    | cons p before =>
      obtain ⟨rfl, rfl⟩ := List.cons.inj hsplit
      rcases hr with ⟨hno, -, -⟩ | ⟨-, later, hgs, rfl⟩
      · rw [hb h List.mem_cons_self a ha] at hno
        cases hno
      · obtain ⟨c, hc, hm⟩ := holdAll_answered hgs before g after rfl fun p hp =>
          hb p (List.mem_cons_of_mem h hp)
        exact ⟨c, hc, fun hmet => hm (Bool.or_eq_false_iff.1 hmet).2⟩

theorem survivors_answered {goal : Goal} {i : Impl} {s : Subst} (hs : i.under? goal = some s) :
    ∀ {is : List Impl} {r : List Selection × Bool}, survivors ask goal is = some r → i ∈ is →
      ∃ b met, holdAll ask (i.obligations.map (·.subst s)) = some (b, met) ∧
        (r.2 = false → met = false)
  | [], _, _, hi => nomatch hi
  | j :: is, r, hr, hi => by
    cases hj : j.under? goal with
    | none =>
      rw [survivors_cons_of_none hj] at hr
      rcases List.mem_cons.1 hi with rfl | hi
      · rw [hs] at hj
        cases hj
      · exact survivors_answered hs hr hi
    | some s' =>
      obtain ⟨b, met, p, hq, hp, rfl⟩ := (survivors_cons_eq_some hj).1 hr
      rcases List.mem_cons.1 hi with rfl | hi
      · obtain rfl := Option.some.inj (hs.symm.trans hj)
        exact ⟨b, met, hq, fun hmet => (Bool.or_eq_false_iff.1 hmet).1⟩
      · obtain ⟨b', met', hq', hm⟩ := survivors_answered hs hp hi
        exact ⟨b', met', hq', fun hmet => hm (Bool.or_eq_false_iff.1 hmet).2⟩

end

/-! ## Fewer goals on the stack -/

section
variable {T : TraitTable} {given : Cache} {stack stack' : List Key} {g : Goal}

theorem atOnce?_of_no_cycle {a : Answer} (ha : atOnce? T given stack g = some a)
    (hm : a.metCycle = false) (stack' : List Key) : atOnce? T given stack' g = some a := by
  cases ht : T.trait? g.trait with
  | none => simpa only [atOnce?, ht] using ha
  | some d =>
    cases hg : given.lookup g.key with
    | some o => simpa only [atOnce?, ht, hg] using ha
    | none =>
      obtain ⟨-, rfl⟩ : g.key ∈ stack ∧ (⟨.error .cycle, true⟩ : Answer) = a := by
        simpa [atOnce?, ht, hg] using ha
      cases hm

theorem atOnce?_none_anti (hsub : stack' ⊆ stack) (opens : atOnce? T given stack g = none) :
    atOnce? T given stack' g = none := by
  obtain ⟨known, hgiven, hk⟩ := atOnce?_eq_none_iff.1 opens
  exact atOnce?_eq_none_iff.2 ⟨known, hgiven, fun h => hk (hsub h)⟩

/-- A search that opens its goal tries the implementations. -/
theorem searchFrom_opens_inv {depth : Nat} {a : Answer} (opens : atOnce? T given stack g = none)
    (ha : searchFrom T given depth stack g = some a) : ∃ d r, depth = d + 1 ∧
      survivors (searchFrom T given d (g.key :: stack)) g T.impls = some r ∧
      a = ⟨unique r.1, r.2⟩ := by
  cases depth with
  | zero => cases ha
  | succ d =>
    simp only [searchFrom, opens] at ha
    obtain ⟨r, hr, rfl⟩ := Option.map_eq_some_iff.1 ha
    exact ⟨d, r, rfl, hr, rfl⟩

theorem searchFrom_anti : ∀ {depth : Nat} {stack stack' : List Key} {g : Goal} {a : Answer},
    stack' ⊆ stack → searchFrom T given depth stack g = some a → a.metCycle = false →
    searchFrom T given depth stack' g = some a
  | 0, _, _, _, _, _, ha, _ => nomatch ha
  | depth + 1, stack, stack', g, a, hsub, ha, hm => by
    cases ho : atOnce? T given stack g with
    | some c =>
      rw [searchFrom_of_atOnce depth ho] at ha
      obtain rfl := Option.some.inj ha
      exact searchFrom_of_atOnce depth (atOnce?_of_no_cycle ho hm stack')
    | none =>
      obtain ⟨d, r, hd, hr, rfl⟩ := searchFrom_opens_inv ho ha
      obtain rfl := Nat.succ.inj hd
      refine searchFrom_of_opens (atOnce?_none_anti hsub ho) (survivors_transfer hr ?_)
      intro x c _ hc hmet
      exact searchFrom_anti (List.cons_subset_cons g.key hsub) hc (hmet hm)

/-- If the search meets no cycle, what comes up in it comes up under fewer goals as well. -/
theorem Asks.anti {x : Goal} (hx : Asks T given stack g x) (hsub : stack' ⊆ stack) {depth : Nat}
    {a : Answer} (ha : searchFrom T given depth stack g = some a) (hm : a.metCycle = false) :
    Asks T given stack' g x := by
  induction hx generalizing stack' depth a with
  | self => exact .self
  | @obligation stack g i s before after o x opens mem applies split holds asked ih =>
    obtain ⟨d, r, rfl, hr, rfl⟩ := searchFrom_opens_inv opens ha
    obtain ⟨b, met, hq, hmet⟩ := survivors_answered applies hr mem
    have hmet := hmet hm
    rw [split, List.map_append, List.map_cons] at hq
    have hsub' : g.key :: stack' ⊆ g.key :: stack := List.cons_subset_cons g.key hsub
    have hok : ∀ p ∈ before, ∀ c, searchFrom T given d (g.key :: stack) (p.subst s) = some c →
        c.outcome.isOk = true := by
      intro p hp c hc
      obtain ⟨sel, d', c', hc', hsel⟩ := holds p hp
      rw [searchFrom_det hc hc']
      exact exists_ok_iff.1 ⟨sel, hsel⟩
    refine .obligation (atOnce?_none_anti hsub opens) mem applies split (fun p hp => ?_) ?_
    · obtain ⟨l₁, l₂, rfl⟩ := List.append_of_mem hp
      obtain ⟨c, hc, hcm⟩ := holdAll_answered hq (l₁.map (·.subst s)) (p.subst s)
        (l₂.map (·.subst s) ++ o.subst s :: after.map (·.subst s)) (by simp)
        (by simpa using fun q hq => hok q (List.mem_append_left _ hq))
      obtain ⟨sel, hsel⟩ := exists_ok_iff.2 (hok p hp c hc)
      exact ⟨sel, d, c, searchFrom_anti hsub' hc (hcm hmet), hsel⟩
    · obtain ⟨c, hc, hcm⟩ := holdAll_answered hq (before.map (·.subst s)) (o.subst s)
        (after.map (·.subst s)) rfl (by simpa using hok)
      exact ih hsub' hc (hcm hmet)

end

/-! ## Tables that agree -/

section
variable {T T' : TraitTable} {given C : Cache} {stack : List Key} {g : Goal}

/-- The two tables agree on whether the trait of the goal is declared. -/
def Agree (T T' : TraitTable) (g : Goal) : Prop :=
  T'.trait? g.trait = none ↔ T.trait? g.trait = none

theorem atOnce?_agree (h : Agree T T' g) (given : Cache) (stack : List Key) :
    atOnce? T' given stack g = atOnce? T given stack g := by
  simp only [atOnce?]
  cases ht : T.trait? g.trait with
  | none => rw [h.2 ht]
  | some d =>
    obtain ⟨d', hd'⟩ := Option.ne_none_iff_exists'.1 fun hn => by
      rw [h.1 hn] at ht
      cases ht
    rw [hd']

theorem Asks.of_tried {depth : Nat} (opens : atOnce? T given stack g = none) {x y : Goal}
    (hx : Tried (searchFrom T given depth (g.key :: stack)) g T.impls x)
    (hy : Asks T given (g.key :: stack) x y) : Asks T given stack g y := by
  obtain ⟨i, hi, s, hs, before, after, hsplit, hb⟩ := hx
  obtain ⟨b, r, hib, rfl, hr⟩ := List.map_eq_append_iff.1 hsplit
  obtain ⟨o, a, rfl, rfl, rfl⟩ := List.map_eq_cons_iff.1 hr
  refine .obligation opens hi hs hib (fun p hp => ?_) hy
  obtain ⟨c, hc, hok⟩ := hb _ (List.mem_map_of_mem hp)
  obtain ⟨sel, hsel⟩ := exists_ok_iff.2 hok
  exact ⟨sel, depth, c, hc, hsel⟩

theorem searchFrom_agree (himpls : T'.impls = T.impls) :
    ∀ {depth : Nat} {stack : List Key} {g : Goal} {a : Answer},
    (∀ x, Asks T given stack g x → Agree T T' x) → searchFrom T given depth stack g = some a →
    searchFrom T' given depth stack g = some a
  | 0, _, _, _, _, ha => nomatch ha
  | depth + 1, stack, g, a, h, ha => by
    have hat := atOnce?_agree (h g .self) given stack
    cases ho : atOnce? T given stack g with
    | some c =>
      rw [searchFrom_of_atOnce depth ho] at ha
      exact searchFrom_of_atOnce depth (hat.trans (ho.trans ha))
    | none =>
      obtain ⟨d, r, hd, hr, rfl⟩ := searchFrom_opens_inv ho ha
      obtain rfl := Nat.succ.inj hd
      refine searchFrom_of_opens (hat.trans ho) (himpls ▸ survivors_transfer hr ?_)
      intro x c hx hc _
      exact searchFrom_agree himpls (fun y hy => h y (.of_tried ho hx hy)) hc

/-- A settled answer stays settled in a table that agrees on the goals of its search. -/
theorem Settled.agree (himpls : T'.impls = T.impls) {o : Outcome} (hset : Settled T given C g o)
    (h : ∀ x, Asks T given [] g x → Agree T T' x) : Settled T' given C g o := by
  obtain ⟨depth, hs⟩ := hset
  refine ⟨depth, fun stack hl => ?_⟩
  obtain ⟨a, ha, hao⟩ := hs stack hl
  refine ⟨a, searchFrom_agree himpls (fun x hx => h x ?_) ha, hao⟩
  exact hx.anti (List.nil_subset stack) ha (Answer.mk.inj hao).2

end

end Mismatch.Select
