import Mismatch.Proofs.Memo

/-!
# Queries that settle

A query settles when, from some depth on, every table with a sound memory answers it, and whatever
such a table answers satisfies one condition (`Settles`). That is how it is said that a query may be
asked again, of the same table at a later time, and gives what it gave before. The rules for `pure`,
`bind` and `map` follow the structure of the queries; their leaves are selections
(`select_settles`) and projections (`project_settles`).
-/

namespace Mismatch

open Select

/-- With each goal the set contains the equivalent ones. -/
def Closed (A : Goal → Prop) : Prop := ∀ {g h : Goal}, A g → g.bare = h.bare → A h

/-- The goals that are equivalent to one of the set. -/
def UpTo (A : Goal → Prop) (g : Goal) : Prop := ∃ h, A h ∧ h.bare = g.bare

section
variable {A : Goal → Prop}

theorem closed_upTo : Closed (UpTo A) := by
  rintro g h ⟨x, hx, e⟩ e'
  exact ⟨x, hx, e.trans e'⟩

theorem upTo_self {g : Goal} (hg : A g) : UpTo A g := ⟨g, hg, rfl⟩

theorem Faithful.upTo (hA : Faithful A) : Faithful (UpTo A) := by
  rintro g h ⟨x, hx, ex⟩ ⟨y, hy, ey⟩ hk
  have hkey : x.key = y.key := by
    rw [Goal.key_eq_of_bare_eq ex, Goal.key_eq_of_bare_eq ey, hk]
  have e := (Goal.equiv_iff x y).1 (hA x y hx hy hkey)
  exact (Goal.equiv_iff g h).2 (by rw [← ex, ← ey, e])

theorem Select.Within.congr {T : TraitTable} {given : Cache} {stack : List Key} {g h : Goal}
    (hc : Closed A) (hw : Within T given A stack g) (e : g.bare = h.bare) :
    Within T given A stack h := by
  intro x hx
  obtain ⟨y, hy, hyx⟩ := hx.congr e.symm
  exact hc (hw y hy) hyx

end

/-- The solver with another bound on the depth of its searches. -/
def Solver.deepen (S : Solver) (depth : Nat) : Solver := ⟨S.table, ⟨depth, S.bounds.maxDeref⟩⟩

/-! ## The rules -/

/-- From the given depth on the query is answered on every sound memory. What it answers on a sound
memory, at any depth, satisfies `R` and leaves a sound memory. -/
structure Settles (T : TraitTable) (given : Cache) (A : Goal → Prop) {α : Type} (depth : Nat)
    (q : Nat → Query α) (R : α → Prop) : Prop where
  answered : ∀ {m : Memo}, Sound T given A m.cache → ∀ d ≥ depth, ∃ r, (q d).run m = some r
  sound : ∀ {m m' : Memo} {d a}, Sound T given A m.cache → (q d).run m = some (a, m') →
    Sound T given A m'.cache
  holds : ∀ {m m' : Memo} {d a}, Sound T given A m.cache → (q d).run m = some (a, m') → R a

namespace Settles
variable {T : TraitTable} {given : Cache} {A : Goal → Prop} {α β : Type} {depth : Nat}
  {q : Nat → Query α} {k : Nat → α → Query β} {R : α → Prop} {R' : β → Prop}

theorem deeper (h : Settles T given A depth q R) {depth' : Nat} (hd : depth ≤ depth') :
    Settles T given A depth' q R where
  answered hs d hd' := h.answered hs d (Nat.le_trans hd hd')
  sound := h.sound
  holds := h.holds

theorem weaken (h : Settles T given A depth q R) {R' : α → Prop} (hR : ∀ a, R a → R' a) :
    Settles T given A depth q R' where
  answered := h.answered
  sound := h.sound
  holds hs hr := hR _ (h.holds hs hr)

/-- A query that only reports settles on its answer. -/
theorem of_reports {a : α} (ha : R a)
    (hq : ∀ d m, ∃ reports, (q d).run m = some (a, ⟨m.cache, reports⟩)) :
    Settles T given A depth q R where
  answered {m} _ d _ := by
    obtain ⟨reports, h⟩ := hq d m
    exact ⟨_, h⟩
  sound {m _ d _} hs hr := by
    obtain ⟨reports, h⟩ := hq d m
    obtain ⟨-, rfl⟩ := Prod.mk.inj (Option.some.inj (h.symm.trans hr))
    exact hs
  holds {m _ d _} _ hr := by
    obtain ⟨reports, h⟩ := hq d m
    obtain ⟨rfl, -⟩ := Prod.mk.inj (Option.some.inj (h.symm.trans hr))
    exact ha

theorem pure {a : α} (ha : R a) : Settles T given A depth (fun _ => Pure.pure a) R :=
  of_reports ha fun _ m => ⟨m.reports, rfl⟩

theorem bind (h : Settles T given A depth q R)
    (hk : ∀ a, R a → Settles T given A depth (fun d => k d a) R') :
    Settles T given A depth (fun d => q d >>= k d) R' where
  answered hs d hd := by
    obtain ⟨⟨a, m₁⟩, ha⟩ := h.answered hs d hd
    obtain ⟨r, hr⟩ := (hk a (h.holds hs ha)).answered (h.sound hs ha) d hd
    exact ⟨r, Query.run_bind_eq_some.2 ⟨a, m₁, ha, hr⟩⟩
  sound hs hr := by
    obtain ⟨a, m₁, ha, hr⟩ := Query.run_bind_eq_some.1 hr
    exact (hk a (h.holds hs ha)).sound (h.sound hs ha) hr
  holds hs hr := by
    obtain ⟨a, m₁, ha, hr⟩ := Query.run_bind_eq_some.1 hr
    exact (hk a (h.holds hs ha)).holds (h.sound hs ha) hr

theorem map (h : Settles T given A depth q R) {f : α → β} (hf : ∀ a, R a → R' (f a)) :
    Settles T given A depth (fun d => f <$> q d) R' := by
  simpa only [map_eq_pure_bind] using h.bind fun a ha => pure (hf a ha)

end Settles

/-! ## Selections -/

namespace Solver
variable {S : Solver} {given : Cache} {A : Goal → Prop} {g h : Goal} {m m' : Memo}

theorem run_select_eq_some {o : Outcome} : (S.select g).run m = some (o, m') ↔
    ∃ a, (solve S.table S.bounds.depth [] g).run m = some (a, m') ∧ a.outcome = o := by
  rw [← Query.run_map_eq_some]
  simp only [select, map_eq_pure_bind]

theorem lacks_nil (C : Cache) : C.Lacks [] := fun _ hk => nomatch hk

theorem run_select_sound (hA : Faithful A) (hw : Within S.table given A [] g)
    (hs : Sound S.table given A m.cache) {o : Outcome} (hr : (S.select g).run m = some (o, m')) :
    Sound S.table given A m'.cache ∧ ∃ p, Answers S.table given [] g p ∧ p.bare = o.bare := by
  obtain ⟨a, ha, rfl⟩ := run_select_eq_some.1 hr
  obtain ⟨k, depth, hd⟩ := run_solve_sound hA S.bounds.depth [] hs (lacks_nil _) hw ha
  obtain ⟨b, hb, hba⟩ := hd [] .self
  exact ⟨k.sound, b.outcome, ⟨depth, b, hb, rfl⟩, (Answer.bare_eq_iff.1 hba).1⟩

theorem run_select_complete (hA : Faithful A) (hw : Within S.table given A [] g)
    (hs : Sound S.table given A m.cache) {a : Answer}
    (ha : searchFrom S.table given S.bounds.depth [] g = some a) :
    ∃ r, (S.select g).run m = some r := by
  obtain ⟨b, m', hb, -⟩ := run_solve_complete hA S.bounds.depth [] hs (lacks_nil _) hw ha
  exact ⟨_, run_select_eq_some.2 ⟨b, hb, rfl⟩⟩

/-- An outcome of the search without a memory settles the selection for all equivalent goals. -/
theorem select_settles (hA : Faithful A) (hc : Closed A) (hw : Within S.table given A [] g)
    {p : Outcome} (hp : Answers S.table given [] g p) : ∃ depth, ∀ h : Goal, g.bare = h.bare →
      Settles S.table given A depth (fun d => (S.deepen d).select h) fun o => o.bare = p.bare := by
  obtain ⟨depth, a, ha, rfl⟩ := hp
  refine ⟨depth, fun h e => ⟨?_, ?_, ?_⟩⟩
  · intro m hs d hd
    obtain ⟨b, hb, -⟩ := searchFrom_of_bare_eq e ha
    exact run_select_complete (S := S.deepen d) hA (hw.congr hc e) hs (searchFrom_mono hd hb)
  · intro m m' d o hs hr
    exact (run_select_sound (S := S.deepen d) hA (hw.congr hc e) hs hr).1
  · intro m m' d o hs hr
    obtain ⟨-, p, hp, hpo⟩ := run_select_sound (S := S.deepen d) hA (hw.congr hc e) hs hr
    obtain ⟨q, hq, hqa⟩ := Answers.congr e ⟨depth, a, ha, rfl⟩
    rw [← hpo, hp.det hq, hqa]

theorem canSelect_eq : S.canSelect g = (·.isOk) <$> S.select g := by
  simp only [canSelect, map_eq_pure_bind]
  congr 1
  funext o
  cases o <;> rfl

theorem run_canSelect_sound (hA : Faithful A) (hw : Within S.table given A [] g)
    (hs : Sound S.table given A m.cache) {b : Bool} (hr : (S.canSelect g).run m = some (b, m')) :
    Sound S.table given A m'.cache ∧ ∃ p, Answers S.table given [] g p ∧ p.isOk = b := by
  rw [canSelect_eq, Query.run_map_eq_some] at hr
  obtain ⟨o, ho, rfl⟩ := hr
  obtain ⟨hs', p, hp, hpo⟩ := run_select_sound hA hw hs ho
  exact ⟨hs', p, hp, Outcome.isOk_eq_of_bare_eq hpo⟩

theorem canSelect_settles (hA : Faithful A) (hc : Closed A) (hw : Within S.table given A [] g)
    {p : Outcome} (hp : Answers S.table given [] g p) : ∃ depth, ∀ h : Goal, g.bare = h.bare →
      Settles S.table given A depth (fun d => (S.deepen d).canSelect h) (· = p.isOk) := by
  obtain ⟨depth, hset⟩ := select_settles hA hc hw hp
  refine ⟨depth, fun h e => ?_⟩
  simp only [canSelect_eq]
  exact (hset h e).map fun o ho => Outcome.isOk_eq_of_bare_eq ho

end Solver

/-! ## Projections -/

/-- The associated type of a selected implementation. -/
def Selection.assoc (s : Selection) (name : Text) : Except SelectionError Ty :=
  match s.impl.assoc.lookup name with
  | none => .error .noSuchAssoc
  | some t => .ok (t.subst s.subst)

theorem Selection.assoc_bare {s t : Selection} (e : s.bare = t.bare) (name : Text) :
    (s.assoc name).map Ty.bare = (t.assoc name).map Ty.bare := by
  obtain ⟨hi, hs⟩ := Selection.mk.inj e
  simp only [assoc, hi]
  cases t.impl.assoc.lookup name with
  | none => rfl
  | some u => simp only [Except.map, Ty.subst_bare, hs]

theorem Outcome.bind_assoc_bare {o p : Outcome} (e : o.bare = p.bare) (name : Text) :
    (o.bind (·.assoc name)).map Ty.bare = (p.bind (·.assoc name)).map Ty.bare := by
  cases o with
  | error x =>
    cases p with
    | error y => obtain rfl : x = y := Except.error.inj e; rfl
    | ok t => cases e
  | ok s =>
    cases p with
    | error y => cases e
    | ok t => exact Selection.assoc_bare (Except.ok.inj e) name

/-- The trait is declared and has the associated type. -/
def TraitTable.Declares (T : TraitTable) (trait : Item) (name : Text) : Prop :=
  ∃ d, T.trait? trait = some d ∧ d.hasAssoc name = true

/-- Why nothing is projected from a trait that does not have the associated type. -/
def TraitTable.undeclared (T : TraitTable) (trait : Item) : SelectionError :=
  match T.trait? trait with
  | none => .unknownTrait
  | some _ => .noSuchAssoc

/-- The associated type of the implementation that the search without a memory selects. -/
def Projects (T : TraitTable) (given : Cache) (g : Goal) (name : Text) (t : Ty) : Prop :=
  T.Declares g.trait name ∧ ∃ s, Answers T given [] g (.ok s) ∧ s.assoc name = .ok t

theorem Projects.det {T : TraitTable} {given : Cache} {g : Goal} {name : Text} {t u : Ty}
    (ht : Projects T given g name t) (hu : Projects T given g name u) : t = u := by
  obtain ⟨-, s, hs, hst⟩ := ht
  obtain ⟨-, s', hs', hsu⟩ := hu
  obtain rfl := Except.ok.inj (hs.det hs')
  exact Except.ok.inj (hst.symm.trans hsu)

/-- A selected implementation whose bindings are equivalent has an equivalent associated type. -/
theorem Selection.assoc_ok_of_bare_eq {s t : Selection} (e : s.bare = t.bare) {name : Text} {u : Ty}
    (hu : s.assoc name = .ok u) : ∃ v, t.assoc name = .ok v ∧ v.bare = u.bare := by
  have hb := Selection.assoc_bare e name
  rw [hu] at hb
  cases ht : t.assoc name with
  | error x => rw [ht] at hb; nomatch hb
  | ok v => rw [ht] at hb; exact ⟨v, rfl, (Except.ok.inj hb).symm⟩

theorem Outcome.ok_of_bare_eq {o : Outcome} {s : Selection} (e : o.bare = Outcome.bare (.ok s)) :
    ∃ t, o = .ok t ∧ t.bare = s.bare := by
  cases o with
  | error x => cases e
  | ok t => exact ⟨t, rfl, Except.ok.inj e⟩

theorem Projects.congr {T : TraitTable} {given : Cache} {g h : Goal} {name : Text} {t : Ty}
    (e : g.bare = h.bare) (ht : Projects T given g name t) :
    ∃ u, Projects T given h name u ∧ u.bare = t.bare := by
  obtain ⟨hd, s, hs, hst⟩ := ht
  obtain ⟨o, ho, hos⟩ := hs.congr e
  obtain ⟨s', rfl, hss⟩ := Outcome.ok_of_bare_eq hos
  obtain ⟨u, hu, hut⟩ := Selection.assoc_ok_of_bare_eq hss.symm hst
  exact ⟨u, ⟨Goal.trait_eq_of_bare_eq e ▸ hd, s', ho, hu⟩, hut⟩

namespace Solver
variable {S : Solver} {given : Cache} {A : Goal → Prop} {g h : Goal} {m m' : Memo} {name : Text}

theorem project_of_declares (hd : S.table.Declares g.trait name) :
    S.project g name = (fun o => o.bind (·.assoc name)) <$> S.select g := by
  obtain ⟨d, hd, hn⟩ := hd
  simp only [project, hd, hn, if_true, map_eq_pure_bind]
  congr 1
  funext o
  cases o with
  | error e => rfl
  | ok s =>
    simp only [Except.bind, Selection.assoc]
    cases s.impl.assoc.lookup name <;> rfl

theorem project_of_not_declares (hd : ¬ S.table.Declares g.trait name) :
    S.project g name = pure (.error (S.table.undeclared g.trait)) := by
  cases ht : S.table.trait? g.trait with
  | none => simp only [project, TraitTable.undeclared, ht]
  | some t =>
    have hn : ¬ t.hasAssoc name = true := fun hn => hd ⟨t, ht, hn⟩
    simp only [project, TraitTable.undeclared, ht, if_neg hn]

/-- What is projected without a memory settles the projection for all equivalent goals. -/
theorem project_settles (hA : Faithful A) (hc : Closed A) (hw : Within S.table given A [] g)
    {t : Ty}
    (ht : Projects S.table given g name t) : ∃ depth, ∀ h : Goal, g.bare = h.bare →
      Settles S.table given A depth (fun d => (S.deepen d).project h name)
        fun r => ∃ u, r = .ok u ∧ u.bare = t.bare := by
  obtain ⟨hd, s, hs, hst⟩ := ht
  obtain ⟨depth, hset⟩ := select_settles hA hc hw hs
  refine ⟨depth, fun h e => ?_⟩
  have hdh : S.table.Declares h.trait name := Goal.trait_eq_of_bare_eq e ▸ hd
  have hq : (fun d => (S.deepen d).project h name) =
      fun d => (fun o => o.bind (·.assoc name)) <$> (S.deepen d).select h :=
    funext fun d => project_of_declares (S := S.deepen d) hdh
  rw [hq]
  refine (hset h e).map fun o ho => ?_
  obtain ⟨s', rfl, hss⟩ := Outcome.ok_of_bare_eq ho
  obtain ⟨u, hu, hut⟩ := Selection.assoc_ok_of_bare_eq hss.symm hst
  exact ⟨u, hu, hut⟩

/-- A projection settles for all equivalent goals on what it gave once. -/
theorem run_project_settles (hA : Faithful A) (hc : Closed A)
    (hw : S.table.Declares g.trait name → Within S.table given A [] g)
    (hs : Sound S.table given A m.cache) {r : Except SelectionError Ty}
    (hr : (S.project g name).run m = some (r, m')) :
    (∀ t, r = .ok t → ∃ u, Projects S.table given g name u ∧ u.bare = t.bare) ∧
      ∃ depth, ∀ h : Goal, g.bare = h.bare →
        Settles S.table given A depth (fun d => (S.deepen d).project h name)
          fun r' => r'.map Ty.bare = r.map Ty.bare := by
  by_cases hd : S.table.Declares g.trait name
  · rw [project_of_declares hd, Query.run_map_eq_some] at hr
    obtain ⟨o, ho, rfl⟩ := hr
    obtain ⟨-, p, hp, hpo⟩ := run_select_sound hA (hw hd) hs ho
    constructor
    · intro t ht
      cases o with
      | error x => cases ht
      | ok s =>
        obtain ⟨s', rfl, hss⟩ := Outcome.ok_of_bare_eq hpo
        obtain ⟨u, hu, hut⟩ := Selection.assoc_ok_of_bare_eq hss.symm ht
        exact ⟨u, ⟨hd, s', hp, hu⟩, hut⟩
    · obtain ⟨depth, hset⟩ := select_settles hA hc (hw hd) hp
      refine ⟨depth, fun h e => ?_⟩
      have hdh : S.table.Declares h.trait name := Goal.trait_eq_of_bare_eq e ▸ hd
      have hq : (fun d => (S.deepen d).project h name) =
          fun d => (fun o => o.bind (·.assoc name)) <$> (S.deepen d).select h :=
        funext fun d => project_of_declares (S := S.deepen d) hdh
      rw [hq]
      exact (hset h e).map fun q hq => Outcome.bind_assoc_bare (hq.trans hpo) name
  · rw [project_of_not_declares hd] at hr
    obtain ⟨rfl, rfl⟩ := Prod.mk.inj (Option.some.inj hr)
    refine ⟨fun t ht => (nomatch ht), 0, fun h e => ?_⟩
    have hq : (fun d => (S.deepen d).project h name) =
        fun _ => pure (.error (S.table.undeclared g.trait)) := by
      rw [Goal.trait_eq_of_bare_eq e] at hd ⊢
      exact funext fun d => project_of_not_declares (S := S.deepen d) hd
    rw [hq]
    exact .pure rfl

end Solver
end Mismatch
