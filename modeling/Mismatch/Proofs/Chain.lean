import Mismatch.Proofs.Settle
import Mismatch.Trait.Deref

/-!
# Chains of dereferences settle

`Reaches T given t n u` says, without a memory, where `n` dereferences of `t` lead. A chain that a
table with a sound memory gives goes along these types (`Along`), and when it is asked for again, of
the same table or of one with another sound memory, the same chain comes out
(`run_coercions_settles`). The same holds of the queries that go through a chain.
-/

namespace Mismatch

open Select

/-- The goal that a dereference of the type asks, where it asks one. -/
def TraitTable.derefGoal? (T : TraitTable) : Ty → Option Goal
  | .missing | .ref .. => none
  | t => T.known.derefTrait.map (⟨t, ·, []⟩)

/-- Where one dereference leads. -/
inductive Leads (T : TraitTable) (given : Cache) : Ty → Ty → Prop
  | ref (m : Mutability) (t : Ty) : Leads T given (.ref m t) t
  | target {t u : Ty} {g : Goal} (asks : T.derefGoal? t = some g)
      (projects : Projects T given g "Target" u) : Leads T given t u

/-- Where a number of dereferences lead. -/
inductive Reaches (T : TraitTable) (given : Cache) (t : Ty) : Nat → Ty → Prop
  | start : Reaches T given t 0 t
  | step {n : Nat} {u v : Ty} : Reaches T given t n u → Leads T given u v →
      Reaches T given t (n + 1) v

/-- The types are those that the dereferences of `t` lead to from the `n`-th on. -/
def Along (T : TraitTable) (given : Cache) (t : Ty) : Nat → List Ty → Prop
  | _, [] => True
  | n, u :: us => (∃ v, Reaches T given t n v ∧ v.bare = u.bare) ∧ Along T given t (n + 1) us

/-- One of the first `bound` dereferences of `t` asks the goal. -/
def DerefAsks (T : TraitTable) (given : Cache) (t : Ty) (bound : Nat) (g : Goal) : Prop :=
  ∃ n < bound, ∃ u, Reaches T given t n u ∧ T.derefGoal? u = some g ∧ T.Declares g.trait "Target"

/-- The goal fails for all types that fewer than `n` dereferences of its type lead to. -/
def FailsBefore (T : TraitTable) (given : Cache) (g : Goal) (n : Nat) : Prop :=
  ∀ k < n, ∀ v, Reaches T given g.self k v → ∃ e, Answers T given [] (g.about v) (.error e)

/-- The goal is asked about one of the first `bound` types that the dereferences of its type lead
to, because it fails for those before. -/
def ChainAsks (T : TraitTable) (given : Cache) (g : Goal) (bound : Nat) (h : Goal) : Prop :=
  ∃ n < bound, ∃ u, Reaches T given g.self n u ∧ FailsBefore T given g n ∧ h = g.about u

/-- The first type of the chain for which the goal does not fail is `u`, and `v` is the equivalent
type that the dereferences lead to. -/
def FirstAt (T : TraitTable) (given : Cache) (g : Goal) (chain : List Ty) (u v : Ty) : Prop :=
  ∃ before after, chain = before ++ u :: after ∧ Reaches T given g.self before.length v ∧
    v.bare = u.bare ∧ FailsBefore T given g before.length

/-- The greatest length of a chain. -/
def Solver.chainBound (S : Solver) : Nat := max S.bounds.maxDeref 1

section
variable {T : TraitTable} {given : Cache} {t u v : Ty}

theorem Leads.det (hu : Leads T given t u) (hv : Leads T given t v) : u = v := by
  cases hu with
  | ref =>
    cases hv with
    | ref => rfl
    | target asks _ => cases asks
  | target asks projects =>
    cases hv with
    | ref => cases asks
    | target asks' projects' =>
      obtain rfl := Option.some.inj (asks.symm.trans asks')
      exact projects.det projects'

theorem Reaches.det {n : Nat} (hu : Reaches T given t n u) (hv : Reaches T given t n v) :
    u = v := by
  induction hu generalizing v with
  | start => cases hv; rfl
  | step _ h ih =>
    cases hv with
    | step hr h' =>
      obtain rfl := ih hr
      exact h.det h'

theorem Along.congr {us us' : List Ty} (e : us'.map Ty.bare = us.map Ty.bare) :
    ∀ {n : Nat}, Along T given t n us → Along T given t n us' := by
  induction us generalizing us' with
  | nil =>
    obtain rfl := List.map_eq_nil_iff.1 e
    exact fun h => h
  | cons u us ih =>
    obtain ⟨u', vs, rfl, eu, es⟩ := List.map_eq_cons_iff.1 e
    rintro n ⟨⟨v, hv, hvu⟩, h⟩
    exact ⟨⟨v, hv, hvu.trans eu.symm⟩, ih es h⟩

theorem Along.reaches {us : List Ty} {n k : Nat} (h : Along T given t n us)
    (hk : us[k]? = some u) : ∃ v, Reaches T given t (n + k) v ∧ v.bare = u.bare := by
  induction us generalizing n k with
  | nil => cases hk
  | cons w us ih =>
    cases k with
    | zero =>
      obtain rfl : w = u := by simpa using hk
      exact h.1
    | succ k =>
      rw [Nat.add_succ, ← Nat.succ_add]
      exact ih h.2 (by simpa using hk)

theorem derefGoal?_congr (e : t.bare = u.bare) :
    (T.derefGoal? t).map Goal.bare = (T.derefGoal? u).map Goal.bare := by
  have hg : ∀ d : Item, Goal.bare ⟨t, d, []⟩ = Goal.bare ⟨u, d, []⟩ := fun d => by
    simp only [Goal.bare, e]
  cases t <;> cases u <;> simp_all [Ty.bare, TraitTable.derefGoal?, Function.comp_def]

theorem derefGoal?_of_bare_eq (e : t.bare = u.bare) {g : Goal} (hg : T.derefGoal? t = some g) :
    ∃ h, T.derefGoal? u = some h ∧ g.bare = h.bare := by
  have hb := derefGoal?_congr (T := T) e
  rw [hg, Option.map_some, eq_comm, Option.map_eq_some_iff] at hb
  obtain ⟨h, hh, hb⟩ := hb
  exact ⟨h, hh, hb.symm⟩

end

namespace Solver
variable {S : Solver} {given : Cache} {A : Goal → Prop} {t u : Ty} {g : Goal} {m m' : Memo}

theorem derefTarget_of_goal (hg : S.table.derefGoal? t = some g) :
    S.derefTarget t = (·.toOption) <$> S.project g "Target" := by
  cases hd : S.table.known.derefTrait with
  | none => cases t <;> simp [TraitTable.derefGoal?, hd] at hg
  | some d =>
    cases t <;> simp only [TraitTable.derefGoal?, hd, Option.map_some, Option.some.injEq,
      reduceCtorEq] at hg <;> subst hg <;> simp only [derefTarget, hd, map_eq_pure_bind]

theorem derefTarget_of_none (hg : S.table.derefGoal? t = none) :
    (∃ n v, t = .ref n v ∧ S.derefTarget t = pure (some v)) ∨ S.derefTarget t = pure none := by
  cases hd : S.table.known.derefTrait with
  | none =>
    cases t with
    | ref n v => exact .inl ⟨n, v, rfl, rfl⟩
    | _ => exact .inr (by simp only [derefTarget, hd])
  | some d =>
    cases t with
    | ref n v => exact .inl ⟨n, v, rfl, rfl⟩
    | missing => exact .inr rfl
    | _ => simp [TraitTable.derefGoal?, hd] at hg

theorem derefTarget_eq_none (hg : S.table.derefGoal? u = none) (hn : ∀ n v, u ≠ .ref n v)
    (e : u.bare = t.bare) : S.derefTarget t = pure none := by
  have ht : S.table.derefGoal? t = none := by
    cases h : S.table.derefGoal? t with
    | none => rfl
    | some g =>
      obtain ⟨g', hg', -⟩ := derefGoal?_of_bare_eq e.symm h
      rw [hg] at hg'
      cases hg'
  rcases derefTarget_of_none ht with ⟨n, v, rfl, -⟩ | h
  · obtain ⟨w, rfl, -⟩ := Ty.eq_ref_of_bare_eq e
    exact absurd rfl (hn n w)
  · exact h

/-- A dereference settles, for all equivalent types, on where it led once. -/
theorem run_derefTarget_settles (hA : Faithful A) (hc : Closed A) (e : u.bare = t.bare)
    (hw : ∀ g, S.table.derefGoal? u = some g → S.table.Declares g.trait "Target" →
      Within S.table given A [] g)
    (hs : Sound S.table given A m.cache) {r : Option Ty}
    (hr : (S.derefTarget t).run m = some (r, m')) :
    (∀ v, r = some v → ∃ w, Leads S.table given u w ∧ w.bare = v.bare) ∧
      ∃ depth, ∀ t' : Ty, u.bare = t'.bare →
        Settles S.table given A depth (fun d => (S.deepen d).derefTarget t')
          fun r' => r'.map Ty.bare = r.map Ty.bare := by
  cases hu : S.table.derefGoal? u with
  | some g =>
    obtain ⟨h, hh, egh⟩ := derefGoal?_of_bare_eq e hu
    rw [derefTarget_of_goal hh, Query.run_map_eq_some] at hr
    obtain ⟨p, hp, rfl⟩ := hr
    obtain ⟨hproj, depth, hset⟩ := run_project_settles hA hc
      (fun hd => (hw g hu (Goal.trait_eq_of_bare_eq egh ▸ hd)).congr hc egh) hs hp
    constructor
    · intro v hv
      cases p with
      | error x => cases hv
      | ok v' =>
        obtain rfl := Option.some.inj hv
        obtain ⟨w, hw, hwv⟩ := hproj v' rfl
        obtain ⟨w', hw', hww⟩ := hw.congr egh.symm
        exact ⟨w', .target hu hw', hww.trans hwv⟩
    · refine ⟨depth, fun t' e' => ?_⟩
      obtain ⟨g', hg', egg⟩ := derefGoal?_of_bare_eq e' hu
      have hq : (fun d => (S.deepen d).derefTarget t') =
          fun d => (·.toOption) <$> (S.deepen d).project g' "Target" :=
        funext fun d => derefTarget_of_goal (S := S.deepen d) hg'
      rw [hq]
      refine (hset g' (egh.symm.trans egg)).map fun p' hp' => ?_
      cases p' <;> cases p <;> simp_all [Except.map, Except.toOption]
  | none =>
    by_cases hn : ∃ n w, u = .ref n w
    · obtain ⟨n, w, rfl⟩ := hn
      obtain ⟨v, rfl, hv⟩ := Ty.eq_ref_of_bare_eq e.symm
      obtain ⟨rfl, rfl⟩ := Prod.mk.inj (Option.some.inj hr)
      refine ⟨fun v' hv' => ?_, 0, fun t' e' => ?_⟩
      · obtain rfl := Option.some.inj hv'
        exact ⟨w, .ref n w, hv.symm⟩
      · obtain ⟨v', rfl, hv'⟩ := Ty.eq_ref_of_bare_eq e'.symm
        exact .pure (by rw [Option.map_some, Option.map_some, hv, hv'])
    · have hn' : ∀ n w, u ≠ .ref n w := fun n w h => hn ⟨n, w, h⟩
      rw [derefTarget_eq_none hu hn' e] at hr
      obtain ⟨rfl, rfl⟩ := Prod.mk.inj (Option.some.inj hr)
      refine ⟨fun v hv => (nomatch hv), 0, fun t' e' => ?_⟩
      have hq : (fun d => (S.deepen d).derefTarget t') = fun _ => pure none :=
        funext fun d => derefTarget_eq_none (S := S.deepen d) hu hn' e'
      rw [hq]
      exact .pure rfl

/-! ## The chain -/

theorem any_equiv_congr {seen seen' : List Ty} (es : seen'.map Ty.bare = seen.map Ty.bare)
    (e : t.bare = u.bare) : seen'.any (·.equiv t) = seen.any (·.equiv u) := by
  have h : ∀ (l : List Ty) (t : Ty),
      l.any (·.equiv t) = (l.map Ty.bare).any (·.equiv t.bare) := fun l t => by
    simp only [List.any_map, Function.comp_def, Ty.bare_equiv, Ty.equiv_bare]
  rw [h seen' t, h seen u, es, e]

/-- The chain ends before the next dereference: it leads nowhere or back, or there is no room. -/
def chainEnds (seen : List Ty) (room : Nat) : Option Ty → Bool
  | none => true
  | some next => seen.any (·.equiv next) || room == 0

theorem chainEnds_congr {seen seen' : List Ty} (es : seen'.map Ty.bare = seen.map Ty.bare)
    (room : Nat) {r r' : Option Ty} (e : r'.map Ty.bare = r.map Ty.bare) :
    chainEnds seen' room r' = chainEnds seen room r := by
  cases r with
  | none =>
    rw [Option.map_none, Option.map_eq_none_iff] at e
    rw [e]
    rfl
  | some u =>
    rw [Option.map_some, Option.map_eq_some_iff] at e
    obtain ⟨u', rfl, e⟩ := e
    simp only [chainEnds, any_equiv_congr es e]

section
variable (start : Ty) {last : Ty} {room : Nat} {seen : List Ty} {r : Option Ty}

/-- What a chain does when it knows where the next dereference leads. -/
def goOn (S : Solver) (start : Ty) (room : Nat) (seen : List Ty) : Option Ty → Query (List Ty)
  | none => return []
  | some next =>
    if seen.any (·.equiv next) then do
      Query.report .warn "traits"
        (Text.join ["deref chain of `", start.text, "` cycles back to `", next.text, "`"])
      return []
    else
      match room with
      | 0 => do
        Query.report .warn "traits"
          (Text.join ["deref chain of `", start.text, "` cut off at depth ",
            Text.ofNat (max S.bounds.maxDeref 1)])
        return []
      | room + 1 => do return next :: (← S.derefsAfter start room (next :: seen) next)

theorem derefsAfter_eq : S.derefsAfter start room seen last =
    S.derefTarget last >>= S.goOn start room seen := by
  rw [derefsAfter]
  rfl

theorem run_goOn_of_ends (h : chainEnds seen room r = true) (m : Memo) :
    ∃ reports, (S.goOn start room seen r).run m = some ([], ⟨m.cache, reports⟩) := by
  cases r with
  | none => exact ⟨m.reports, rfl⟩
  | some next =>
    simp only [goOn]
    split
    · exact ⟨_, rfl⟩
    · rename_i hseen
      obtain rfl : room = 0 := by simpa [chainEnds, hseen] using h
      exact ⟨_, rfl⟩

theorem goOn_of_not_ends (h : chainEnds seen room r = false) :
    ∃ next room', r = some next ∧ room = room' + 1 ∧
      S.goOn start room seen r =
        (next :: ·) <$> S.derefsAfter start room' (next :: seen) next := by
  cases r with
  | none => cases h
  | some next =>
    obtain ⟨hseen, hroom⟩ : seen.any (·.equiv next) = false ∧ room ≠ 0 := by
      simpa [chainEnds] using h
    obtain ⟨room', rfl⟩ := Nat.exists_eq_succ_of_ne_zero hroom
    refine ⟨next, room', rfl, rfl, ?_⟩
    simp only [goOn, hseen, Bool.false_eq_true, if_false, map_eq_pure_bind]

end

/-- A chain settles, for all equivalent types, on what it was once. The dereferences that `t` leads
to are followed from the `n`-th on. -/
theorem run_derefsAfter_settles (hA : Faithful A) (hc : Closed A)
    (hw : ∀ g, DerefAsks S.table given t S.chainBound g → Within S.table given A [] g) :
    ∀ {room n : Nat} {u start last : Ty} {seen : List Ty} {m m' : Memo} {chain : List Ty},
    Reaches S.table given t n u → u.bare = last.bare → n + room < S.chainBound →
    Sound S.table given A m.cache →
    (S.derefsAfter start room seen last).run m = some (chain, m') →
    Along S.table given t (n + 1) chain ∧ chain.length ≤ room ∧
      ∃ depth, ∀ (start' last' : Ty) (seen' : List Ty), seen'.map Ty.bare = seen.map Ty.bare →
        u.bare = last'.bare →
        Settles S.table given A depth (fun d => (S.deepen d).derefsAfter start' room seen' last')
          fun c => c.map Ty.bare = chain.map Ty.bare := by
  intro room n u start last seen m m' chain hu e hn hs hr
  rw [derefsAfter_eq, Query.run_bind_eq_some] at hr
  obtain ⟨r, m₁, hr₁, hr⟩ := hr
  obtain ⟨hleads, d₁, h₁⟩ :=
    run_derefTarget_settles hA hc e
      (fun g hg hd => hw g ⟨n, by omega, u, hu, hg, hd⟩) hs hr₁
  have hs₁ : Sound S.table given A m₁.cache := (h₁ last e).sound (d := S.bounds.depth) hs hr₁
  -- Equivalent types end their chains alike, whatever the memory.
  cases hends : chainEnds seen room r with
  | true =>
    obtain ⟨reports, h⟩ := run_goOn_of_ends (S := S) start hends m₁
    obtain ⟨rfl, rfl⟩ := Prod.mk.inj (Option.some.inj (h.symm.trans hr))
    refine ⟨trivial, Nat.zero_le _, d₁, fun start' last' seen' es el => ?_⟩
    simp only [derefsAfter_eq]
    refine (h₁ last' el).bind fun r' hr' => .of_reports rfl fun d m => ?_
    exact run_goOn_of_ends (S := S.deepen d) start' (by rw [chainEnds_congr es room hr', hends]) m
  | false =>
    obtain ⟨next, room', rfl, rfl, hgo⟩ := goOn_of_not_ends (S := S) start hends
    rw [hgo, Query.run_map_eq_some] at hr
    obtain ⟨rest, hrest, rfl⟩ := hr
    obtain ⟨v, hv, hvn⟩ := hleads next rfl
    obtain ⟨halong, hlen, d₂, h₂⟩ :=
      run_derefsAfter_settles hA hc hw (hu.step hv) hvn (by omega) hs₁ hrest
    refine ⟨⟨⟨v, hu.step hv, hvn⟩, halong⟩, Nat.succ_le_succ hlen, max d₁ d₂,
      fun start' last' seen' es el => ?_⟩
    simp only [derefsAfter_eq]
    refine ((h₁ last' el).deeper (Nat.le_max_left ..)).bind fun r' hr' => ?_
    have hends' : chainEnds seen' (room' + 1) r' = false := by
      rw [chainEnds_congr es _ hr', hends]
    obtain ⟨next', rfl, hnn⟩ := Option.map_eq_some_iff.1 hr'
    have hq : (fun d => (S.deepen d).goOn start' (room' + 1) seen' (some next')) =
        fun d => (next' :: ·) <$>
          (S.deepen d).derefsAfter start' room' (next' :: seen') next' := by
      funext d
      obtain ⟨w, k, hw, hk, h⟩ := goOn_of_not_ends (S := S.deepen d) start' hends'
      obtain rfl := Option.some.inj hw
      obtain rfl := Nat.succ.inj hk
      exact h
    rw [hq]
    have h₂' := h₂ start' next' (next' :: seen')
      (by rw [List.map_cons, List.map_cons, es, hnn]) (hvn.trans hnn.symm)
    exact (h₂'.deeper (Nat.le_max_right ..)).map fun c hc => by
      rw [List.map_cons, List.map_cons, hc, hnn]
termination_by room => room

theorem coercions_of_ne_missing (ht : t ≠ .missing) : S.coercions t =
    S.derefsAfter t (S.chainBound - 1) [t] t >>= fun rest => do
      Query.report .trace "traits"
        (Text.join ["coercion sequence of `", t.text, "` has ",
          Text.ofNat (t :: rest).length, " step(s)"])
      return t :: rest := by
  cases t with
  | missing => exact absurd rfl ht
  | _ => simp only [coercions, chainBound]

theorem run_coercions_settles (hA : Faithful A) (hc : Closed A)
    (hw : ∀ g, DerefAsks S.table given t S.chainBound g → Within S.table given A [] g)
    (hs : Sound S.table given A m.cache) {chain : List Ty}
    (hr : (S.coercions t).run m = some (chain, m')) :
    Along S.table given t 0 chain ∧ chain.length ≤ S.chainBound ∧
      ∃ depth, ∀ t' : Ty, t.bare = t'.bare →
        Settles S.table given A depth (fun d => (S.deepen d).coercions t')
          fun c => c.map Ty.bare = chain.map Ty.bare := by
  have hbound : 1 ≤ S.chainBound := Nat.le_max_right ..
  by_cases ht : t = .missing
  · subst ht
    obtain ⟨rfl, rfl⟩ := Prod.mk.inj (Option.some.inj hr)
    refine ⟨⟨⟨_, .start, rfl⟩, trivial⟩, hbound, 0, fun t' e => ?_⟩
    obtain rfl : t' = .missing := (Ty.bare_eq_missing t').1 e.symm
    exact .pure rfl
  · rw [coercions_of_ne_missing ht, Query.run_bind_eq_some] at hr
    obtain ⟨rest, m₁, hrest, hr⟩ := hr
    obtain ⟨rfl, rfl⟩ := Prod.mk.inj (Option.some.inj hr)
    obtain ⟨halong, hlen, depth, hset⟩ :=
      run_derefsAfter_settles hA hc hw .start rfl (by omega) hs hrest
    refine ⟨⟨⟨t, .start, rfl⟩, halong⟩, ?_, depth, fun t' e => ?_⟩
    · rw [List.length_cons]
      omega
    · have ht' : t' ≠ .missing := fun h => ht ((Ty.bare_eq_missing t).1 (by rw [e, h]; rfl))
      simp only [coercions_of_ne_missing ht']
      refine (hset t' t' [t'] (by rw [List.map_singleton, List.map_singleton, e]) e).bind
        fun c hc => .of_reports ?_ fun d m => ⟨_, rfl⟩
      rw [List.map_cons, List.map_cons, hc, e]

/-! ## Going through a chain -/

theorem firstSelected_cons {ts : List Ty} : S.firstSelected g (t :: ts) =
    S.canSelect (g.about t) >>= fun b =>
      if b then pure (some (g.about t)) else S.firstSelected g ts := rfl

end Solver

theorem FailsBefore.succ {T : TraitTable} {given : Cache} {g : Goal} {n : Nat} {v : Ty}
    (h : FailsBefore T given g n) (hv : Reaches T given g.self n v)
    {e : SelectionError} (he : Answers T given [] (g.about v) (.error e)) :
    FailsBefore T given g (n + 1) := by
  intro k hk w hw
  rcases Nat.lt_succ_iff_lt_or_eq.1 hk with hk | rfl
  · exact h k hk w hw
  · rw [hw.det hv]
    exact ⟨e, he⟩

namespace Solver
variable {S : Solver} {given : Cache} {A : Goal → Prop} {t u : Ty} {g : Goal} {m m' : Memo}

/-- The first type in a part of a chain that has an answer to a goal settles. -/
theorem run_firstSelected_settles (hA : Faithful A) (hc : Closed A)
    (hw : ∀ h, ChainAsks S.table given g S.chainBound h → Within S.table given A [] h) :
    ∀ {n : Nat} {ts : List Ty} {m m' : Memo} {r : Option Goal},
    Along S.table given g.self n ts → n + ts.length ≤ S.chainBound →
    FailsBefore S.table given g n → Sound S.table given A m.cache →
    (S.firstSelected g ts).run m = some (r, m') →
    (∀ h, r = some h → ∃ before u after v s, ts = before ++ u :: after ∧ h = g.about u ∧
        Reaches S.table given g.self (n + before.length) v ∧ v.bare = u.bare ∧
        FailsBefore S.table given g (n + before.length) ∧
        Answers S.table given [] (g.about v) (.ok s)) ∧
      ∃ depth, ∀ (g' : Goal) (ts' : List Ty), g.bare = g'.bare →
        ts'.map Ty.bare = ts.map Ty.bare →
        Settles S.table given A depth (fun d => (S.deepen d).firstSelected g' ts')
          fun r' => r'.map Goal.bare = r.map Goal.bare
  | n, [], m, m', r, _, _, _, hs, hr => by
    obtain ⟨rfl, rfl⟩ := Prod.mk.inj (Option.some.inj hr)
    refine ⟨fun h hh => (nomatch hh), 0, fun g' ts' e et => ?_⟩
    obtain rfl : ts' = [] := List.map_eq_nil_iff.1 et
    exact .pure rfl
  | n, t :: ts, m, m', r, ⟨⟨v, hv, hvt⟩, halong⟩, hn, hfail, hs, hr => by
    rw [List.length_cons] at hn
    rw [firstSelected_cons, Query.run_bind_eq_some] at hr
    obtain ⟨b, m₁, hb, hr⟩ := hr
    have hwv := hw _ ⟨n, by omega, v, hv, hfail, rfl⟩
    have e : (g.about v).bare = (g.about t).bare := Goal.about_bare_congr hvt g
    obtain ⟨hs₁, p, hp, hpb⟩ := run_canSelect_sound hA (hwv.congr hc e) hs hb
    obtain ⟨q, hq, hqp⟩ := hp.congr e.symm
    have hqb : q.isOk = b := (Outcome.isOk_eq_of_bare_eq hqp).trans hpb
    obtain ⟨d₁, h₁⟩ := canSelect_settles hA hc hwv hq
    have h₁' : ∀ (g' : Goal) (t' : Ty), g.bare = g'.bare → t'.bare = t.bare →
        Settles S.table given A d₁ (fun d => (S.deepen d).canSelect (g'.about t')) (· = b) :=
      fun g' t' eg et => hqb ▸ h₁ _ (e.trans (Goal.about_bare_congr₂ eg et.symm))
    cases b with
    | true =>
      obtain ⟨rfl, rfl⟩ := Prod.mk.inj (Option.some.inj hr)
      refine ⟨fun h hh => ?_, d₁, fun g' ts' eg et => ?_⟩
      · obtain rfl := Option.some.inj hh
        obtain ⟨s, rfl⟩ := exists_ok_iff.2 hqb
        exact ⟨[], t, ts, v, s, rfl, rfl, hv, hvt, hfail, hq⟩
      · obtain ⟨t', us, rfl, et, -⟩ := List.map_eq_cons_iff.1 et
        refine (h₁' g' t' eg et).bind fun b hb => ?_
        simp only [hb, if_true]
        exact .pure (by rw [Option.map_some, Option.map_some, Goal.about_bare_congr₂ eg et.symm])
    | false =>
      obtain ⟨x, rfl⟩ : ∃ x, q = .error x := by
        cases q with
        | error x => exact ⟨x, rfl⟩
        | ok s => cases hqb
      obtain ⟨hsome, d₂, h₂⟩ := run_firstSelected_settles hA hc hw halong (by omega)
        (hfail.succ hv hq) hs₁ hr
      refine ⟨fun h hh => ?_, max d₁ d₂, fun g' ts' eg et => ?_⟩
      · obtain ⟨before, u, after, w, s, rfl, rfl, hw, hwu, hf, hs⟩ := hsome h hh
        rw [Nat.add_right_comm] at hw hf
        exact ⟨t :: before, u, after, w, s, rfl, rfl, hw, hwu, hf, hs⟩
      · obtain ⟨t', us, rfl, et, eus⟩ := List.map_eq_cons_iff.1 et
        refine ((h₁' g' t' eg et).deeper (Nat.le_max_left ..)).bind fun b hb => ?_
        simp only [hb, Bool.false_eq_true, if_false]
        exact (h₂ g' us eg eus).deeper (Nat.le_max_right ..)

/-- The first type in the chain of the goal's type that has an answer to the goal. -/
def firstOfChain (S : Solver) (g : Goal) : Query (Option Goal) :=
  S.coercions g.self >>= S.firstSelected g

theorem canSelectDeref_eq : S.canSelectDeref g = (·.isSome) <$> S.firstOfChain g := by
  simp only [canSelectDeref, firstOfChain, map_eq_pure_bind, bind_assoc]

theorem projectDeref_eq {name : Text} : S.projectDeref g name = S.firstOfChain g >>= fun
    | none => return .error .noImpl
    | some g => S.project g name := by
  rw [projectDeref, firstOfChain]
  exact (bind_assoc _ _ _).symm

section
variable (hA : Faithful A) (hc : Closed A)
  (hd : ∀ h, DerefAsks S.table given g.self S.chainBound h → Within S.table given A [] h)
  (hw : ∀ h, ChainAsks S.table given g S.chainBound h → Within S.table given A [] h)
  (hs : Sound S.table given A m.cache)
include hA hc hd hw hs

theorem run_firstOfChain_settles {r : Option Goal}
    (hr : (S.firstOfChain g).run m = some (r, m')) :
    (∀ h, r = some h → ∃ chain m₁ u v s, (S.coercions g.self).run m = some (chain, m₁) ∧
      FirstAt S.table given g chain u v ∧ h = g.about u ∧
      Within S.table given A [] (g.about v) ∧ Answers S.table given [] (g.about v) (.ok s)) ∧
    ∃ depth, ∀ g' : Goal, g.bare = g'.bare →
      Settles S.table given A depth (fun d => (S.deepen d).firstOfChain g')
        fun r' => r'.map Goal.bare = r.map Goal.bare := by
  obtain ⟨chain, m₁, hchain, hr⟩ := Query.run_bind_eq_some.1 hr
  obtain ⟨halong, hlen, d₁, h₁⟩ := run_coercions_settles hA hc hd hs hchain
  have hs₁ := (h₁ g.self rfl).sound (d := S.bounds.depth) hs hchain
  obtain ⟨hsome, d₂, h₂⟩ := run_firstSelected_settles hA hc hw halong (by omega)
    (fun k hk => absurd hk (Nat.not_lt_zero k)) hs₁ hr
  refine ⟨fun h hh => ?_, max d₁ d₂, fun g' e => ?_⟩
  · obtain ⟨before, u, after, v, s, hsplit, rfl, hv, hvu, hf, hsel⟩ := hsome h hh
    rw [Nat.zero_add] at hv hf
    have hlt : before.length < S.chainBound := by
      rw [hsplit, List.length_append, List.length_cons] at hlen
      omega
    exact ⟨chain, m₁, u, v, s, hchain, ⟨before, after, hsplit, hv, hvu, hf⟩, rfl,
      hw _ ⟨before.length, hlt, v, hv, hf, rfl⟩, hsel⟩
  · have es : g.self.bare = g'.self.bare := (Goal.mk.inj e).1
    exact ((h₁ g'.self es).deeper (Nat.le_max_left ..)).bind fun c hc =>
      (h₂ g' c e hc).deeper (Nat.le_max_right ..)

theorem run_canSelectDeref_settles {b : Bool} (hr : (S.canSelectDeref g).run m = some (b, m')) :
    ∃ depth, ∀ g' : Goal, g.bare = g'.bare →
      Settles S.table given A depth (fun d => (S.deepen d).canSelectDeref g') (· = b) := by
  rw [canSelectDeref_eq, Query.run_map_eq_some] at hr
  obtain ⟨r, hr, rfl⟩ := hr
  obtain ⟨-, depth, hset⟩ := run_firstOfChain_settles hA hc hd hw hs hr
  refine ⟨depth, fun g' e => ?_⟩
  simp only [canSelectDeref_eq]
  refine (hset g' e).map fun r' hr' => ?_
  rw [← Option.isSome_map, hr', Option.isSome_map]

/-- A projection through a chain settles on what it gave once. What it gives is projected for the
first type of the chain for which the goal does not fail. -/
theorem run_projectDeref_settles {name : Text} {r : Except SelectionError Ty}
    (hr : (S.projectDeref g name).run m = some (r, m')) :
    (∀ t, r = .ok t → ∃ chain m₁ u v w s, (S.coercions g.self).run m = some (chain, m₁) ∧
      FirstAt S.table given g chain u v ∧ Answers S.table given [] (g.about v) (.ok s) ∧
      Projects S.table given (g.about v) name w ∧ w.bare = t.bare) ∧
    ∃ depth, ∀ g' : Goal, g.bare = g'.bare →
      Settles S.table given A depth (fun d => (S.deepen d).projectDeref g' name)
        fun r' => r'.map Ty.bare = r.map Ty.bare := by
  rw [projectDeref_eq, Query.run_bind_eq_some] at hr
  obtain ⟨o, m₁, ho, hr⟩ := hr
  obtain ⟨hsome, d₁, h₁⟩ := run_firstOfChain_settles hA hc hd hw hs ho
  have hs₁ := (h₁ g rfl).sound (d := S.bounds.depth) hs ho
  cases o with
  | none =>
    obtain ⟨rfl, rfl⟩ := Prod.mk.inj (Option.some.inj hr)
    refine ⟨fun t ht => (nomatch ht), d₁, fun g' e => ?_⟩
    simp only [projectDeref_eq]
    refine (h₁ g' e).bind fun o' ho' => ?_
    obtain rfl := Option.map_eq_none_iff.1 ho'
    exact .pure rfl
  | some h =>
    obtain ⟨chain, m₂, u, v, s, hchain, hfirst, rfl, hwv, hsel⟩ := hsome h rfl
    have hvu : v.bare = u.bare := by
      obtain ⟨-, -, -, -, hvu, -⟩ := hfirst
      exact hvu
    have e : (g.about v).bare = (g.about u).bare := Goal.about_bare_congr hvu g
    obtain ⟨hproj, d₂, h₂⟩ := run_project_settles hA hc (fun _ => hwv.congr hc e) hs₁ hr
    refine ⟨fun t ht => ?_, max d₁ d₂, fun g' eg => ?_⟩
    · obtain ⟨w, hw, hwt⟩ := hproj t ht
      obtain ⟨w', hw', hww⟩ := hw.congr e.symm
      exact ⟨chain, m₂, u, v, w', s, hchain, hfirst, hsel, hw', hww.trans hwt⟩
    · simp only [projectDeref_eq]
      refine ((h₁ g' eg).deeper (Nat.le_max_left ..)).bind fun o' ho' => ?_
      obtain ⟨h', rfl, hh⟩ := Option.map_eq_some_iff.1 ho'
      exact (h₂ h' hh.symm).deeper (Nat.le_max_right ..)

end

end Solver
end Mismatch
