import Mismatch.Proofs.Chain

/-!
# Sessions

A session is a history of queries to one table, each of which may use its own bounds. It leaves a
sound memory behind (`Session.sound`), so that a selection afterwards has the outcome of the search
without a memory and comes to an end when that does (`Session.select_search`). What a query gave at
one time it gives at every later time (`Settles.yields`).
-/

namespace Mismatch

open Select

/-- The queries to a table. -/
inductive Ask where
  | select (g : Goal)
  | canSelect (g : Goal)
  | project (g : Goal) (name : Text)
  | coercions (t : Ty)
  | canSelectDeref (g : Goal)
  | projectDeref (g : Goal) (name : Text)

namespace Ask

/-- Puts the query and drops its answer. -/
def put (S : Solver) : Ask → Query Unit
  | select g => (fun _ => ()) <$> S.select g
  | canSelect g => (fun _ => ()) <$> S.canSelect g
  | project g name => (fun _ => ()) <$> S.project g name
  | coercions t => (fun _ => ()) <$> S.coercions t
  | canSelectDeref g => (fun _ => ()) <$> S.canSelectDeref g
  | projectDeref g name => (fun _ => ()) <$> S.projectDeref g name

/-- The goals that the query searches for. -/
def Starts (S : Solver) (given : Cache) : Ask → Goal → Prop
  | select g, h | canSelect g, h => h = g
  | project g name, h => h = g ∧ S.table.Declares g.trait name
  | coercions t, h => DerefAsks S.table given t S.chainBound h
  | canSelectDeref g, h | projectDeref g _, h =>
    DerefAsks S.table given g.self S.chainBound h ∨ ChainAsks S.table given g S.chainBound h

/-- The goals that come up in the searches of the query. -/
def Arises (S : Solver) (given : Cache) (q : Ask) (x : Goal) : Prop :=
  ∃ g, q.Starts S given g ∧ Asks S.table given [] g x

/-- All goals that come up in the searches of the query are in the set. -/
def Within (S : Solver) (given : Cache) (A : Goal → Prop) (q : Ask) : Prop :=
  ∀ x, q.Arises S given x → A x

end Ask

/-- A history of queries whose goals are in the set leads from the memory `m` to another. -/
inductive Session (T : TraitTable) (given : Cache) (A : Goal → Prop) (m : Memo) : Memo → Prop
  | refl : Session T given A m m
  | ask {m' m'' : Memo} (q : Ask) (B : Bounds) (h : Session T given A m m')
      (hw : q.Within ⟨T, B⟩ given A) (hr : (q.put ⟨T, B⟩).run m' = some ((), m'')) :
      Session T given A m m''

section
variable {S : Solver} {given : Cache} {A : Goal → Prop} {q : Ask} {g : Goal} {m m' : Memo}

theorem Ask.Within.start (hw : q.Within S given A) (hg : q.Starts S given g) :
    Select.Within S.table given (UpTo A) [] g :=
  fun x hx => upTo_self (hw x ⟨g, hg, hx⟩)

theorem Query.run_drop {α : Type} {x : Query α} (hr : ((fun _ => ()) <$> x).run m = some ((), m')) :
    ∃ a, x.run m = some (a, m') := by
  obtain ⟨a, ha, -⟩ := Query.run_map_eq_some.1 hr
  exact ⟨a, ha⟩

/-- A query keeps the memory sound. -/
theorem Ask.sound (hA : Faithful A) (hw : q.Within S given A)
    (hs : Sound S.table given (UpTo A) m.cache) (hr : (q.put S).run m = some ((), m')) :
    Sound S.table given (UpTo A) m'.cache := by
  have hA' := hA.upTo
  have hc : Closed (UpTo A) := closed_upTo
  cases q with
  | select g =>
    obtain ⟨o, ho⟩ := Query.run_drop hr
    exact (S.run_select_sound hA' (hw.start rfl) hs ho).1
  | canSelect g =>
    obtain ⟨b, hb⟩ := Query.run_drop hr
    exact (S.run_canSelect_sound hA' (hw.start rfl) hs hb).1
  | project g name =>
    obtain ⟨t, ht⟩ := Query.run_drop hr
    obtain ⟨-, depth, hset⟩ :=
      S.run_project_settles hA' hc (fun hd => hw.start ⟨rfl, hd⟩) hs ht
    exact (hset g rfl).sound (d := S.bounds.depth) hs ht
  | coercions t =>
    obtain ⟨chain, hchain⟩ := Query.run_drop hr
    obtain ⟨-, -, depth, hset⟩ := S.run_coercions_settles hA' hc (fun g hg => hw.start hg) hs hchain
    exact (hset t rfl).sound (d := S.bounds.depth) hs hchain
  | canSelectDeref g =>
    obtain ⟨b, hb⟩ := Query.run_drop hr
    obtain ⟨depth, hset⟩ := S.run_canSelectDeref_settles hA' hc
      (fun h hh => hw.start (.inl hh)) (fun h hh => hw.start (.inr hh)) hs hb
    exact (hset g rfl).sound (d := S.bounds.depth) hs hb
  | projectDeref g name =>
    obtain ⟨t, ht⟩ := Query.run_drop hr
    obtain ⟨-, depth, hset⟩ := S.run_projectDeref_settles hA' hc
      (fun h hh => hw.start (.inl hh)) (fun h hh => hw.start (.inr hh)) hs ht
    exact (hset g rfl).sound (d := S.bounds.depth) hs ht

theorem Session.sound {T : TraitTable} (hA : Faithful A) (h : Session T given A m m')
    (hs : Sound T given (UpTo A) m.cache) : Sound T given (UpTo A) m'.cache := by
  induction h with
  | refl => exact hs
  | ask q B _ hw hr ih => exact Ask.sound (S := ⟨T, B⟩) hA hw ih hr

end

/-! ## Asking again -/

/-- On the memory the query is answered if its searches may go deep enough, and all its answers
satisfy `R`. -/
structure Yields {α : Type} (m : Memo) (q : Nat → Query α) (R : α → Prop) : Prop where
  answered : ∃ depth, ∀ d ≥ depth, ∃ r, (q d).run m = some r
  holds : ∀ {d : Nat} {a : α} {m' : Memo}, (q d).run m = some (a, m') → R a

theorem Yields.mono {α : Type} {m : Memo} {q : Nat → Query α} {R R' : α → Prop} (h : Yields m q R)
    (hR : ∀ a, R a → R' a) : Yields m q R' :=
  ⟨h.answered, fun hr => hR _ (h.holds hr)⟩

theorem Settles.yields {T : TraitTable} {given : Cache} {A : Goal → Prop} {α : Type} {depth : Nat}
    {q : Nat → Query α} {R : α → Prop} {m : Memo} (h : Settles T given A depth q R)
    (hs : Sound T given A m.cache) : Yields m q R :=
  ⟨⟨depth, h.answered hs⟩, h.holds hs⟩

/-! ## Sets of goals that can be listed -/

/-- The goals that are equivalent to one of the list. -/
def Listed (goals : List Goal) : Goal → Prop := UpTo (· ∈ goals)

/-- The list contains, up to equivalence, the obligations of all implementations that apply to a
goal of it. -/
def TraitTable.closes (T : TraitTable) (goals : List Goal) : Bool :=
  goals.all fun g => T.impls.all fun i =>
    match i.under? g with
    | none => true
    | some s => i.obligations.all fun o => goals.any (·.equiv (o.subst s))

/-- Goals of the list that have one key are equivalent. -/
def keysSuffice (goals : List Goal) : Bool :=
  goals.all fun g => goals.all fun h => g.key != h.key || g.equiv h

theorem faithful_listed {goals : List Goal} (h : keysSuffice goals = true) :
    Faithful (Listed goals) := by
  refine Faithful.upTo fun g k hg hk hkey => ?_
  have hgk := List.all_eq_true.1 (List.all_eq_true.1 h g hg) k hk
  simpa [hkey] using hgk

theorem Select.Asks.listed {T : TraitTable} {given : Cache} {goals : List Goal}
    (h : T.closes goals = true) {stack : List Key} {g x : Goal} (hx : Asks T given stack g x)
    (hg : Listed goals g) : Listed goals x := by
  induction hx with
  | self => exact hg
  | @obligation stack g i s before after o x _ mem applies split _ _ ih =>
    obtain ⟨k, hk, e⟩ := hg
    have hi := i.under?_congr e
    rw [applies, Option.map_some, Option.map_eq_some_iff] at hi
    obtain ⟨s', hs', hb⟩ := hi
    have hki := List.all_eq_true.1 (List.all_eq_true.1 h k hk) i mem
    simp only [hs', List.all_eq_true, List.any_eq_true] at hki
    obtain ⟨y, hy, hyo⟩ := hki o (by rw [split]; simp)
    exact ih ⟨y, hy, ((Goal.equiv_iff _ _).1 hyo).trans (Goal.subst_bare_congr hb o)⟩

theorem Ask.Within.listed {S : Solver} {given : Cache} {q : Ask} {goals : List Goal}
    (h : S.table.closes goals = true) (hq : ∀ g, q.Starts S given g → Listed goals g) :
    q.Within S given (Listed goals) := by
  rintro x ⟨g, hg, hx⟩
  exact hx.listed h (hq g hg)

/-! ## A sample -/

namespace Sample

def marker : Item := ⟨[77], []⟩

def deref : Item := ⟨[68], []⟩

def fromValue : Item := ⟨[70], []⟩

/-- A type that owns a value of another. -/
def box (t : Ty) : Ty := .adt ⟨[66], []⟩ [t]

def param : Ty := .param [84]

/-- The marker holds for a boxed type if it holds for the type, and for a slice if it does so
already. A box dereferences to what it owns and can be made from it. -/
def table : TraitTable where
  traits := [⟨marker, [], []⟩, ⟨deref, [], [("Target" : Text)]⟩, ⟨fromValue, [[85]], []⟩]
  impls := [
    ⟨[], ⟨.bool, marker, []⟩, [], []⟩,
    ⟨[[84]], ⟨box param, marker, []⟩, [], [⟨param, marker, []⟩]⟩,
    ⟨[[84]], ⟨.slice param, marker, []⟩, [], [⟨.slice param, marker, []⟩]⟩,
    ⟨[[84]], ⟨box param, deref, []⟩, [("Target", param)], []⟩,
    ⟨[[84]], ⟨box param, fromValue, [param]⟩, [], []⟩]
  known := { KnownItems.none with derefTrait := some deref, fromTrait := some fromValue }

def solver : Solver := ⟨table, ⟨9, 9⟩⟩

def goals : List Goal :=
  [⟨.bool, marker, []⟩, ⟨box .bool, marker, []⟩, ⟨box (box .bool), marker, []⟩,
    ⟨.slice .bool, marker, []⟩, ⟨.bool, deref, []⟩, ⟨box .bool, deref, []⟩,
    ⟨box .bool, fromValue, [.bool]⟩]

theorem closes_goals : table.closes goals = true := by decide

theorem faithful_goals : Faithful (Listed goals) := faithful_listed (by decide)

theorem listed {g : Goal} (h : g ∈ goals) : Listed goals g := upTo_self h

theorem leads_box {u : Ty} (h : Leads table [] (box .bool) u) : u = .bool := by
  cases h with
  | target asks projects =>
    obtain rfl := Option.some.inj asks
    have hbool : Projects table [] ⟨box .bool, deref, []⟩ "Target" .bool :=
      ⟨⟨_, rfl, rfl⟩, _, ⟨2, _, rfl, rfl⟩, rfl⟩
    exact projects.det hbool

theorem not_leads_bool {u : Ty} : ¬ Leads table [] .bool u := by
  intro h
  cases h with
  | target asks projects =>
    obtain rfl := Option.some.inj asks
    obtain ⟨-, s, hs, -⟩ := projects
    have hno : Answers table [] [] ⟨.bool, deref, []⟩ (.error .noImpl) := ⟨2, _, rfl, rfl⟩
    nomatch hs.det hno

theorem reaches_bool {n : Nat} {u : Ty} (h : Reaches table [] .bool n u) : u = .bool := by
  induction h with
  | start => rfl
  | step _ hl ih => exact absurd (ih ▸ hl) not_leads_bool

theorem reaches_box {n : Nat} {u : Ty} (h : Reaches table [] (box .bool) n u) :
    u = box .bool ∨ u = .bool := by
  induction h with
  | start => exact .inl rfl
  | step _ hl ih =>
    rcases ih with rfl | rfl
    · exact .inr (leads_box hl)
    · exact absurd hl not_leads_bool

end Sample

/-! ## The search without a memory -/

/-- After any history of queries that started without a memory, a goal is selected as the search
without a memory answers it, and the one comes to an end if and only if the other does. What is
remembered are outcomes of goals whose searches meet no cycle, under any stack of goals that are not
remembered themselves. -/
theorem Session.select_search {T : TraitTable} {A : Goal → Prop} {reports : List Log.Event}
    {m : Memo} {g : Goal} (hA : Faithful A) (h : Session T [] A ⟨[], reports⟩ m)
    (hg : ∀ x, Asks T [] [] g x → A x) :
    ((∃ B r, ((Solver.mk T B).select g).run m = some r) ↔ ∃ depth a, search T depth [] g = some a) ∧
    (∀ B o m' depth a, ((Solver.mk T B).select g).run m = some (o, m') →
      search T depth [] g = some a → o.Equiv a.outcome) ∧
    ∀ k o, m.cache.lookup k = some o → ∃ x, A x ∧ x.key = k ∧
      ∃ depth, ∀ stack, m.cache.Lacks stack →
        ∃ a, search T depth stack x = some a ∧ a.metCycle = false ∧ o.Equiv a.outcome := by
  have hs : Sound T [] (UpTo A) m.cache := h.sound hA sound_given
  have hw : Select.Within T [] (UpTo A) [] g := fun x hx => upTo_self (hg x hx)
  refine ⟨⟨?_, ?_⟩, ?_, ?_⟩
  · rintro ⟨B, ⟨o, m'⟩, hr⟩
    obtain ⟨-, p, ⟨depth, a, ha, -⟩, -⟩ := (Solver.mk T B).run_select_sound hA.upTo hw hs hr
    exact ⟨depth, a, ha⟩
  · rintro ⟨depth, a, ha⟩
    obtain ⟨r, hr⟩ := (Solver.mk T ⟨depth, 0⟩).run_select_complete hA.upTo hw hs ha
    exact ⟨⟨depth, 0⟩, r, hr⟩
  · intro B o m' depth a hr ha
    obtain ⟨-, p, hp, hpo⟩ := (Solver.mk T B).run_select_sound hA.upTo hw hs hr
    have hpa : p = a.outcome := hp.det ⟨depth, a, ha, rfl⟩
    exact Outcome.equiv_of_bare_eq (by rw [← hpa, hpo])
  · intro k o hk
    obtain ⟨x, ⟨y, hy, e⟩, hkey, depth, hset⟩ := hs.settled k o hk rfl
    refine ⟨y, hy, (Goal.key_eq_of_bare_eq e).trans hkey, depth, fun stack hl => ?_⟩
    obtain ⟨a, ha, hao⟩ := hset stack hl
    obtain ⟨b, hb, hba⟩ := searchFrom_of_bare_eq e.symm ha
    obtain ⟨ho, hmet⟩ := Answer.mk.inj (hba.trans hao)
    exact ⟨b, hb, hmet, Outcome.equiv_of_bare_eq ho.symm⟩

/-- After a query that met a cycle, which is not remembered, and one whose answer is, the goal that
depends on the latter is selected as without a memory. -/
theorem Session.select_search_box_box : ∃ m o m' a,
    Session Sample.table [] (Listed Sample.goals) ⟨[], []⟩ m ∧ m.cache.length = 2 ∧
    (Sample.solver.select ⟨Sample.box (Sample.box .bool), Sample.marker, []⟩).run m = some (o, m') ∧
    search Sample.table 4 [] ⟨Sample.box (Sample.box .bool), Sample.marker, []⟩ = some a ∧
    a.outcome.isOk = true ∧ o.Equiv a.outcome := by
  have hslice : (Ask.canSelect ⟨.slice .bool, Sample.marker, []⟩).Within Sample.solver []
      (Listed Sample.goals) :=
    .listed Sample.closes_goals fun g hg =>
      Sample.listed (by simp [show g = _ from hg, Sample.goals])
  have hbox : (Ask.select ⟨Sample.box .bool, Sample.marker, []⟩).Within Sample.solver []
      (Listed Sample.goals) :=
    .listed Sample.closes_goals fun g hg =>
      Sample.listed (by simp [show g = _ from hg, Sample.goals])
  have h₁ : Session Sample.table [] (Listed Sample.goals) ⟨[], []⟩ _ :=
    .ask _ Sample.solver.bounds .refl hslice rfl
  have h₂ : Session Sample.table [] (Listed Sample.goals) ⟨[], []⟩ _ :=
    .ask _ Sample.solver.bounds h₁ hbox rfl
  have hgoal : ∀ x, Asks Sample.table [] []
      ⟨Sample.box (Sample.box .bool), Sample.marker, []⟩ x → Listed Sample.goals x :=
    fun x hx => hx.listed Sample.closes_goals (Sample.listed (by simp [Sample.goals]))
  refine ⟨_, _, _, _, h₂, rfl, rfl, rfl, rfl, ?_⟩
  exact (Session.select_search Sample.faithful_goals h₂ hgoal).2.1 Sample.solver.bounds _ _ 4 _
    rfl rfl

end Mismatch
